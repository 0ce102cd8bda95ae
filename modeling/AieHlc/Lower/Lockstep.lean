import AieHlc.Lower.Core
import AieHlc.Lower.Gather

/-!
# Rounds of a gather on both sides

A gather's rounds are sized twice: by the shim, from the kernel's round count, the
largest divisor within the ping-pong budget or the output descriptor, and by the
cores, from the rounds of the tiling and a budget that need not divide.

* `coreRound`: elements of a round, as the cores size it.
* `Lockstep`: a fire of the shim is a descriptor of a core, and all fires of a tile
  are the core's share.
* `windowElems`, `subTile`: a window of the kernel and a sub-tile of the output, by
  share, budget, rounds and tiling.
* `lockstep_iff`: the flows for which the two sides agree, in these terms.
-/

namespace AieHlc.Lower

open List AieHlc.Dma AieHlc.Word

variable {ppDepth : ℤ} {core : CoreTileCtx}

section Sizes

variable (m : Module) (maxBytes : ℕ) (op : FlowTransferOp)

/-- Elements of a round, as the cores size it. -/
def coreRound : ℕ :=
  clampElements maxBytes op.elemBytes (max 1 (gatherShare m op / outDivisor (enterPass m)))

/-- Bytes of one fire: with several tiles those of an out-of-order round, else the whole view. -/
def fireBytes (c : FlowLoweringCtx) : ℕ := if 1 < c.numCoreTiles then c.perRoundBytes else c.perTileShimLen

/-- A flow that gathers an output. Halos describe inputs. -/
structure FlowTransferOp.IsOutput extends FlowTransferOp.IsGather op where
  tiles : 0 < op.coreTiles
  plain : lookupHalo m.tensorInfo op.argIdx = none

/-- The two sides of a gather agree. -/
structure Lockstep (core : CoreTileCtx) (starts : List StartIo) : Prop where
  bytes : fireBytes (shimCtx m maxBytes op) = coreBdLen (shimCtx m maxBytes op) core
  /-- the starts fire as often for every tile, and take its share -/
  total : ∃ fires, (starts.map fun s => s.repeatCount.toNat).sum = op.coreTiles * fires ∧
    fires * fireBytes (shimCtx m maxBytes op) = gatherShare m op * op.elemBytes

end Sizes

/-! ## Sizes of a round -/

theorem sum_map_range {f : ℕ → ℕ} {k a : ℕ} (h : ∀ i, f i = a) : ((range k).map f).sum = k * a := by
  rw [map_congr_left fun i _ => h i, map_const', sum_replicate_nat, length_range]

theorem subRounds_pos (tile full : ℕ) : 0 < subRounds tile full := by
  unfold subRounds
  split
  · rename_i h
    exact Nat.div_pos h.2.le h.1
  · exact Nat.one_pos

theorem outDivisor_pos (ps : BlueprintPassState) : 0 < outDivisor ps := by
  have h := Nat.mul_pos (subRounds_pos ps.tileM ps.tileRows) (subRounds_pos ps.tileN ps.tileCols)
  unfold outDivisor
  dsimp only
  split <;> omega

variable {m : Module} {maxBytes : ℕ} {op : FlowTransferOp}

theorem coreRound_pos (m : Module) (maxBytes : ℕ) (op : FlowTransferOp) : 0 < coreRound m maxBytes op :=
  clampElements_pos (by omega) _ _

theorem shimRound_dvd (m : Module) (maxBytes : ℕ) (op : FlowTransferOp) :
    shimRound m maxBytes op ∣ gatherShare m op := pingPongSize_dvd ..

/-! ## By share, budget and tiling -/

section Terms

variable (m : Module) (maxBytes : ℕ) (op : FlowTransferOp)

/-- Elements of a share that the budget admits. -/
def shareBudget : ℕ := budgetElems maxBytes op.elemBytes (gatherShare m op)

/-- Elements of a window of the kernel: a share, cut by its rounds and to the budget. -/
def windowElems : ℕ := min (max 1 (gatherShare m op / outDivisor (enterPass m))) (shareBudget m maxBytes op)

/-- The kernel's rounds are given, and cut the share. -/
def RoundsGiven : Prop := 1 < m.kernelTiling.outRounds ∧ m.kernelTiling.outRounds ∣ gatherShare m op

instance : Decidable (RoundsGiven m op) := inferInstanceAs (Decidable (_ ∧ _))

/-- The rounds without descriptor. -/
structure LineAgrees : Prop where
  /-- rounds that are given are as many as the sub-tiles of M and N, and fit the budget -/
  given : RoundsGiven m op →
    (subRounds (enterPass m).tileM (enterPass m).tileRows * subRounds (enterPass m).tileN
      (enterPass m).tileCols ≤
      m.kernelTiling.outRounds ∨ gatherShare m op = m.kernelTiling.outRounds) ∧
      gatherShare m op ≤ shareBudget m maxBytes op * m.kernelTiling.outRounds
  /-- else a window cuts the share, and no larger divisor is within the budget -/
  free : ¬RoundsGiven m op →
    IsGreatest {e | e ∣ gatherShare m op ∧ e ≤ shareBudget m maxBytes op} (windowElems m maxBytes op)
  fires : op.coreTiles * (gatherShare m op / windowElems m maxBytes op) < 2 ^ 31

/-- Elements of a sub-tile of the output, host rounds, and sub-tiles of a host round. -/
structure SubTile where
  elems : ℕ
  host : ℕ
  iters : ℕ

/-- The sub-tiles of a convolution by its tiling, or by its halo if there is none, and of a GEMM by
those of M and N. -/
def subTile : SubTile :=
  let ps := enterPass m
  let halo := detectConvHalo m.tensorInfo
  let outRounds := if 0 < m.kernelTiling.outRounds then m.kernelTiling.outRounds
    else halo.wRounds * halo.l2Rounds
  let slab := fun channels => max 1 (gatherShare m op / max 1 outRounds / (halo.owT * channels)) *
    halo.owT * channels
  if halo.valid then
    if op.memrefType.rank = 3 then
      match op.tiling with
      | some [d0, d1, d2] =>
        let d := ![d0, d1, d2]
        let rows := (d (dimRoles d).rowDim).rounds
        let iters := (d (dimRoles d).iterDim).outer.rounds
        if ps.outputTileMajor then ⟨d0.blk * d1.blk * d2.blk, 1, rows * iters⟩
        else ⟨d0.blk * d1.blk * d2.blk, rows, iters⟩
      | _ => ⟨slab (op.memrefType.dimSize 2), halo.l2Rounds, halo.wRounds⟩
    else ⟨slab (op.memrefType.dimSize 1 / op.coreTiles), halo.l2Rounds, halo.wRounds⟩
  else
    let mRounds := subRounds ps.tileM ps.tileRows
    let nRounds := subRounds ps.tileN ps.tileCols
    let cols := if 0 < ps.tileN ∧ ps.tileN < ps.tileCols then ps.tileN
      else op.memrefType.dimSize 1 / op.coreTiles
    if m.isNOuterPolicy then ⟨ps.tileM * cols, nRounds, mRounds⟩ else ⟨ps.tileM * cols, mRounds, nRounds⟩

/-- Where the two sides agree. -/
structure RoundsAgree : Prop where
  /-- one tile: its share is one window -/
  single : op.coreTiles = 1 → (outDivisor (enterPass m) = 1 ∨ gatherShare m op = 1) ∧
    gatherShare m op ≤ shareBudget m maxBytes op
  generic : 1 < op.coreTiles → ¬HasDesc m → LineAgrees m maxBytes op
  /-- a sub-tile is a window, and all sub-tiles are the share -/
  desc : 1 < op.coreTiles → HasDesc m →
    (subTile m op).elems = windowElems m maxBytes op ∧ windowElems m maxBytes op ∣ gatherShare m op ∧
      (1 < (subTile m op).host → (subTile m op).host * (i32 (op.coreTiles * (subTile m op).iters : ℕ)).toNat =
        op.coreTiles * (gatherShare m op / windowElems m maxBytes op)) ∧
      -- a single host round is fired as if there were no descriptor
      (¬1 < (subTile m op).host → LineAgrees m maxBytes op)

end Terms

theorem coreRound_eq (maxBytes : ℕ) (hP : 0 < gatherShare m op) :
    coreRound m maxBytes op = windowElems m maxBytes op := by
  unfold coreRound windowElems shareBudget budgetElems
  split
  · rename_i h0
    have hle : gatherShare m op / outDivisor (enterPass m) ≤ gatherShare m op := Nat.div_le_self _ _
    simp only [clampElements, h0, lt_irrefl, false_and, if_false, ite_self]
    omega
  · rename_i h0
    exact clampElements_eq op.elemBytes_pos (Nat.pos_of_ne_zero h0) _

theorem shimRound_eq (maxBytes : ℕ) (hP : 0 < gatherShare m op) :
    shimRound m maxBytes op = if RoundsGiven m op then gatherShare m op / m.kernelTiling.outRounds
      else Nat.findGreatest (· ∣ gatherShare m op) (shareBudget m maxBytes op) :=
  pingPongSize_eq _ maxBytes hP op.elemBytes_pos

theorem outDivisor_eq (m : Module) : outDivisor (enterPass m) =
    max (subRounds (enterPass m).tileM (enterPass m).tileRows * subRounds (enterPass m).tileN
      (enterPass m).tileCols)
      m.kernelTiling.outRounds := by
  unfold outDivisor
  rw [show (enterPass m).kernelTiling = m.kernelTiling from rfl]
  dsimp only
  split <;> omega

/-- A share cut by `r` is the share cut by at least as many, within the budget. -/
theorem div_eq_window_iff {p r s b : ℕ} (hp : 0 < p) (hdvd : r ∣ p) :
    p / r = min (max 1 (p / max s r)) b ↔ (s ≤ r ∨ p = r) ∧ p ≤ b * r := by
  obtain ⟨q, rfl⟩ := hdvd
  have hr : 0 < r := Nat.pos_of_mul_pos_right hp
  have hq : 0 < q := Nat.pos_of_mul_pos_left hp
  have hle : r * q ≤ b * r ↔ q ≤ b := by rw [mul_comm b, Nat.mul_le_mul_left_iff hr]
  have hone : r * q = r ↔ q = 1 := by rw [mul_eq_left₀ hr.ne']
  rw [Nat.mul_div_cancel_left q hr, hle, hone]
  rcases le_or_gt s r with hs | hs
  · rw [max_eq_right hs, Nat.mul_div_cancel_left q hr]
    omega
  · have hlt : r * q / s < q := by
      rw [Nat.div_lt_iff_lt_mul (by omega), mul_comm r]
      exact Nat.mul_lt_mul_of_pos_left hs hq
    rw [max_eq_left hs.le]
    omega

theorem windowElems_pos (maxBytes : ℕ) (hP : 0 < gatherShare m op) : 0 < windowElems m maxBytes op :=
  coreRound_eq maxBytes hP ▸ coreRound_pos m maxBytes op

/-- The two sides cut the share alike. -/
theorem shimRound_eq_window_iff (hP : 0 < gatherShare m op) :
    shimRound m maxBytes op = windowElems m maxBytes op ∧
        op.coreTiles * (gatherShare m op / windowElems m maxBytes op) < 2 ^ 31 ↔
        LineAgrees m maxBytes op := by
  have hgreatest : Nat.findGreatest (· ∣ gatherShare m op) (shareBudget m maxBytes op) =
    windowElems m maxBytes op ↔
      IsGreatest {e | e ∣ gatherShare m op ∧ e ≤ shareBudget m maxBytes op} (windowElems m maxBytes op) := by
    constructor
    · intro h
      refine ⟨⟨?_, min_le_right _ _⟩, fun e he => h ▸ Nat.le_findGreatest he.2 he.1⟩
      exact Nat.findGreatest_of_ne_zero (P := (· ∣ gatherShare m op)) h (windowElems_pos maxBytes hP).ne'
    · intro h
      have hle := h.1.2
      have hspec := Nat.findGreatest_spec (P := (· ∣ gatherShare m op)) hle h.1.1
      exact le_antisymm (h.2 ⟨hspec, Nat.findGreatest_le _⟩) (Nat.le_findGreatest hle h.1.1)
  rw [shimRound_eq maxBytes hP]
  by_cases hg : RoundsGiven m op
  · have hround := div_eq_window_iff (s := subRounds (enterPass m).tileM (enterPass m).tileRows *
      subRounds (enterPass m).tileN (enterPass m).tileCols) (b := shareBudget m maxBytes op) hP hg.2
    rw [← outDivisor_eq] at hround
    rw [if_pos hg]
    exact ⟨fun h => ⟨fun _ => hround.1 h.1, fun hn => absurd hg hn, h.2⟩,
      fun h => ⟨hround.2 (h.given hg), h.fires⟩⟩
  · rw [if_neg hg, hgreatest]
    exact ⟨fun h => ⟨fun hy => absurd hy hg, fun _ => h.1, h.2⟩, fun h => ⟨h.free hg, h.fires⟩⟩

/-- A window that divides the share is at most the shim's round. -/
theorem window_le_shimRound (hP : 0 < gatherShare m op)
    (hdvd : windowElems m maxBytes op ∣ gatherShare m op) :
    windowElems m maxBytes op ≤ shimRound m maxBytes op := by
  rw [shimRound_eq maxBytes hP]
  split
  · -- the kernel's rounds, which the cores' divisor is at least
    rename_i h
    have hout : 0 < gatherShare m op / m.kernelTiling.outRounds :=
      Nat.div_pos (Nat.le_of_dvd hP h.2) (Nat.zero_lt_of_lt h.1)
    have hdiv : gatherShare m op / outDivisor (enterPass m) ≤ gatherShare m op / m.kernelTiling.outRounds :=
      Nat.div_le_div_left (outDivisor_eq m ▸ le_max_right _ _) (Nat.zero_lt_of_lt h.1)
    exact (min_le_left _ _).trans (max_le hout hdiv)
  · exact Nat.le_findGreatest (min_le_right _ _) hdvd

/-- Rows of a slab of `w * c` elements each, where `r` slabs are a share of `p`; one if there is less. -/
theorem slabRows_eq (p r w c : ℕ) :
    (if (if 0 < w * c then (if 0 < r then p / r else p) / (w * c) else 1) = 0 then 1
      else if 0 < w * c then (if 0 < r then p / r else p) / (w * c) else 1) =
        max 1 (p / max 1 r / (w * c)) := by
  have hr : (if 0 < r then p / r else p) = p / max 1 r := by
    rcases Nat.eq_zero_or_pos r with rfl | hr
    · simp
    · rw [if_pos hr, max_eq_right (show 1 ≤ r from hr)]
  rw [hr]
  rcases Nat.eq_zero_or_pos (w * c) with h | h
  · simp [h]
  · rw [if_pos h]
    generalize p / max 1 r / (w * c) = q
    split <;> omega

/-- The sub-tiles are those of the output descriptor. -/
theorem gatherDesc_subTile (hT : 0 < op.coreTiles) (hd : HasDesc m) :
    (gatherDesc m op).bdLenBytes = (subTile m op).elems * op.elemBytes ∧
      (gatherDesc m op).totalRounds = (subTile m op).host ∧
      ∀ x : ℤ, i32 (x * (gatherDesc m op).iterWrap) = i32 (x * (subTile m op).iters) := by
  unfold gatherDesc buildOutputTileDescriptor subTile
  rw [show (enterPass m).tensorInfo = m.tensorInfo from rfl]
  by_cases hv : (detectConvHalo m.tensorInfo).valid = true
  · simp only [hv, if_true]
    by_cases hr : op.memrefType.rank = 3
    · have hshare : op.memrefType.shape.foldl (· * ·) 1 = gatherShare m op := (if_pos ⟨hr, hv⟩).symm
      simp only [hr, if_true]
      by_cases ht : ∃ d0 d1 d2, op.tiling = some [d0, d1, d2]
      · obtain ⟨d0, d1, d2, ht⟩ := ht
        have hblk : 1 * d0.blk * d1.blk * d2.blk = d0.blk * d1.blk * d2.blk := by rw [one_mul]
        simp only [ht, convDesc]
        split
        · refine ⟨congrArg (· * _) hblk, rfl, fun x => ?_⟩
          simp only [tileMajor, i32_mul_right, Nat.cast_mul]
        · exact ⟨congrArg (· * _) hblk, rfl, fun x => i32_mul_right x _⟩
      · have hne : ∀ d0 d1 d2, op.tiling = some [d0, d1, d2] → False := fun d0 d1 d2 h => ht ⟨d0, d1, d2, h⟩
        -- by `hne`, both matches take their last branch
        simp only
        refine ⟨?_, rfl, fun x => i32_mul_right x _⟩
        simp only [convFallbackDesc, slabRows_eq, hshare]
        rfl
    · have hshare : op.memrefType.shape.foldl (· * ·) 1 / op.coreTiles = gatherShare m op :=
        (if_neg fun h => hr h.1).symm
      simp only [hr, if_false]
      refine ⟨?_, rfl, fun x => i32_mul_right x _⟩
      simp only [haloDesc, slabRows_eq, if_pos hT, hshare]
      rfl
  · obtain ⟨h0, hlt, -⟩ := hd.resolve_right hv
    simp only [hv, if_false, gemmDesc, subRounds, if_pos h0, if_pos (And.intro h0 hlt),
      decide_eq_true_eq, Bool.false_eq_true]
    cases m.isNOuterPolicy
    · exact ⟨rfl, rfl, fun x => by simp only [Bool.false_eq_true, if_false, i32_mul_right]⟩
    · exact ⟨rfl, rfl, fun x => by simp only [if_true, i32_mul_right]⟩

/-! ## What the two sides compute -/

section Context

variable (m : Module) (maxBytes : ℕ)

/-- Several tiles: the emitted context is that of the per-tile addressing, with the descriptors added. -/
theorem shimCtx_several (h : op.IsGather) (hT : 1 < op.coreTiles) :
    let c := shimCtx m maxBytes op
    c.usedMRounds3D = (gatherCtx m maxBytes op).usedMRounds3D ∧ c.oooMRounds =
      (gatherCtx m maxBytes op).oooMRounds ∧
      c.oooIterWrap = (gatherCtx m maxBytes op).oooIterWrap ∧
      c.perRoundBytes = (gatherCtx m maxBytes op).perRoundBytes := by
  rw [shimCtx_ooo m maxBytes h hT]
  exact ⟨rfl, rfl, rfl, rfl⟩

theorem shimCtx_one (hT : op.coreTiles = 1) : (shimCtx m maxBytes op).usedMRounds3D = false := by
  rw [shimCtx_nonOoo m maxBytes hT]
  rfl

theorem gatherCtx_rounds (h : op.IsGather) (hT : 0 < op.coreTiles) (hd : ¬HasDesc m) :
    (gatherCtx m maxBytes op).usedMRounds3D = false ∧
      (gatherCtx m maxBytes op).perRoundBytes = shimRound m maxBytes op * op.elemBytes := by
  obtain ⟨hround, -, -, hused⟩ := paramsCtx_gather m maxBytes h hT
  have hcond := not_descCond h hd
  unfold gatherCtx gatherParams
  simp only [paramsCtx_op]
  rw [if_neg hcond]
  unfold genericGather
  split <;> exact ⟨hused, hround⟩

theorem shimCtx_noSlab (h : lookupHalo m.tensorInfo op.argIdx = none) :
    (shimCtx m maxBytes op).isHaloSlab = false ∧ (shimCtx m maxBytes op).kAccumHaloSlab = false := by
  obtain ⟨-, -, -, -, -, hslab, hk, -⟩ := emitShimBd_keeps m (enterPass m) (paramsCtx m maxBytes op)
  have hhalo : lookupHalo (enterPass m).tensorInfo op.argIdx = none := h
  refine ⟨hslab.trans ?_, hk.trans ?_⟩
  · show (emitShimTileAndParams (enterPass m) { op := op }).isHaloSlab = false
    simp only [emitShimTileAndParams, hhalo]
  · show (emitShimTileAndParams (enterPass m) { op := op }).kAccumHaloSlab = false
    simp only [emitShimTileAndParams, hhalo]

theorem repeats_output (h : op.IsOutput m) {starts : List StartIo}
    (hok : lowerFlow m maxBytes op = .ok starts) :
    (starts.map fun s => s.repeatCount.toNat).sum =
      if ((shimCtx m maxBytes op).usedMRounds3D &&
        decide (1 < (shimCtx m maxBytes op).oooMRounds)) = true then
        (shimCtx m maxBytes op).oooMRounds * (i32 (op.coreTiles * (shimCtx m maxBytes op).oooIterWrap)).toNat
      else (i32 (op.coreTiles * (gatherShare m op / shimRound m maxBytes op) : ℕ)).toNat := by
  obtain ⟨hop, hn, huse, hiter, -⟩ := shimCtx_gather m maxBytes h.toIsGather h.tiles
  obtain ⟨hslab, hk⟩ := shimCtx_noSlab m maxBytes h.plain
  have hsend : (shimCtx m maxBytes op).op.shimIsSender = false := by rw [hop, h.receives]
  obtain rfl := Except.ok.inj ((lowerFlow_eq m maxBytes op).symm.trans hok)
  unfold flowStarts emitSchedule
  rw [if_neg (by rw [hsend]; simp), huse, Bool.true_and]
  split
  · -- the round loop fires every tile as often in each round
    unfold emitScheduleOooOutput
    rw [map_map, hn]
    exact sum_map_range fun _ => rfl
  · have hline : straightLineRepeat m (enterPass m) (shimCtx m maxBytes op)
        (classifyScheduleMode m (enterPass m) (shimCtx m maxBytes op)) =
        i32 (op.coreTiles * (gatherShare m op / shimRound m maxBytes op) : ℕ) := by
      unfold straightLineRepeat
      rw [if_neg (by rw [hsend]; simp), if_neg (by rw [hk]; simp), if_neg (by rw [hslab]; simp),
        if_pos huse, hn, hiter]
    unfold emitScheduleStraightLine
    rw [map_singleton, sum_singleton, hline]

theorem lowerCore_gather (h : op.IsGather) (hT : 0 < op.coreTiles)
    (hok : lowerCore m maxBytes ppDepth op = .ok core) :
    core.pingPongBufferSize = coreRound m maxBytes op ∧ core.elementSizeBytes = op.elemBytes := by
  obtain ⟨hop, hn, -⟩ := shimCtx_gather m maxBytes h hT
  have hsend : (shimCtx m maxBytes op).op.shimIsSender = false := by rw [hop, h.receives]
  have hshare : coreElements (enterPass m) (shimCtx m maxBytes op) = gatherShare m op := by
    unfold coreElements
    simp only [hop, hn, h.manyToOne, decide_true, Bool.true_and, true_and, numElements_div]
    exact gatherShare_eq m op
  have hwin : perKRoundElements (enterPass m) (shimCtx m maxBytes op) =
      gatherShare m op / outDivisor (enterPass m) := by
    have hpos := outDivisor_pos (enterPass m)
    unfold perKRoundElements
    simp only [hsend, hshare, Bool.false_eq_true, if_false]
    split
    · rfl
    · rw [show outDivisor (enterPass m) = 1 by omega, Nat.div_one]
  have hsizes := coreTileSizes_receiver (enterPass m) ppDepth hsend
  rw [hwin] at hsizes
  unfold lowerCore at hok
  rw [lowerShim_eq] at hok
  obtain ⟨hsize, heb, -⟩ := computeCoreIterations_size hok
  rw [hsizes] at hsize heb
  refine ⟨?_, ?_⟩
  · rw [hsize, hop]
    rfl
  · rw [heb, hop]
    rfl

theorem coreBdLen_output (h : op.IsOutput m) (hok : lowerCore m maxBytes ppDepth op = .ok core) :
    coreBdLen (shimCtx m maxBytes op) core = coreRound m maxBytes op * op.elemBytes := by
  obtain ⟨hop, -⟩ := shimCtx_gather m maxBytes h.toIsGather h.tiles
  have hsend : (shimCtx m maxBytes op).op.shimIsSender = false := by rw [hop, h.receives]
  obtain ⟨hround, hbytes⟩ := lowerCore_gather m maxBytes h.toIsGather h.tiles hok
  have hne := Nat.mul_pos (coreRound_pos m maxBytes op) op.elemBytes_pos
  unfold coreBdLen
  simp only [hsend, hround, hbytes, Bool.false_eq_true, and_false, if_false]
  exact if_neg hne.ne'

end Context

/-! ## Agreement -/

theorem exists_fires_iff {s n w e p : ℕ} (hw : 0 < w) (he : 0 < e) :
    (∃ fires, s = n * fires ∧ fires * (w * e) = p * e) ↔ w ∣ p ∧ s = n * (p / w) := by
  constructor
  · rintro ⟨fires, rfl, htotal⟩
    have hp : p = fires * w := Nat.eq_of_mul_eq_mul_right he (by rw [← htotal, mul_assoc])
    refine ⟨Dvd.intro_left fires hp.symm, ?_⟩
    rw [hp, Nat.mul_div_cancel _ hw]
  · rintro ⟨hdvd, rfl⟩
    refine ⟨p / w, rfl, ?_⟩
    rw [← mul_assoc, Nat.div_mul_cancel hdvd]

/-- The fires without descriptor are the core's rounds only if the rounds are equal. -/
theorem line_fires_iff (hT : 0 < op.coreTiles) (hP : 0 < gatherShare m op)
    (hdvd : windowElems m maxBytes op ∣ gatherShare m op) :
    (i32 (op.coreTiles * (gatherShare m op / shimRound m maxBytes op) : ℕ)).toNat =
        op.coreTiles * (gatherShare m op / windowElems m maxBytes op) ↔ LineAgrees m maxBytes op := by
  have hle := window_le_shimRound hP hdvd
  have hsdvd := shimRound_dvd m maxBytes op
  have hw := windowElems_pos maxBytes hP
  rw [← shimRound_eq_window_iff hP]
  generalize shimRound m maxBytes op = h at *
  generalize windowElems m maxBytes op = w at *
  generalize gatherShare m op = p at *
  have hquot : 0 < op.coreTiles * (p / w) := Nat.mul_pos hT (Nat.div_pos (Nat.le_of_dvd hP hdvd) hw)
  constructor
  · intro heq
    have htrunc := toNat_i32_le (op.coreTiles * (p / h))
    have hback : p / w ≤ p / h := Nat.le_of_mul_le_mul_left (heq ▸ htrunc) hT
    have hsame : p / h = p / w := le_antisymm (Nat.div_le_div_left hle hw) hback
    have hround : h = w := by
      refine Nat.eq_of_mul_eq_mul_right (Nat.pos_of_mul_pos_left hquot) ?_
      rw [Nat.mul_div_cancel' hdvd, ← hsame, Nat.mul_div_cancel' hsdvd]
    rw [hsame] at heq
    exact ⟨hround, (toNat_i32_eq_iff hquot).1 heq⟩
  · rintro ⟨rfl, hlt⟩
    exact toNat_i32_of_lt hlt

/-- What agreement asks of a fire of `b` bytes, `total` times. -/
theorem lockstep_of_fire {starts : List StartIo} (h : op.IsOutput m) (hP : 0 < gatherShare m op)
    (hcore : lowerCore m maxBytes ppDepth op = .ok core) {b total : ℕ}
    (hb : fireBytes (shimCtx m maxBytes op) = b)
    (ht : (starts.map fun s => s.repeatCount.toNat).sum = total) :
    Lockstep m maxBytes op core starts ↔ b = windowElems m maxBytes op * op.elemBytes ∧
      windowElems m maxBytes op ∣ gatherShare m op ∧
      total = op.coreTiles * (gatherShare m op / windowElems m maxBytes op) := by
  have hlen := coreBdLen_output m maxBytes h hcore
  rw [coreRound_eq maxBytes hP] at hlen
  have hfires := @exists_fires_iff total op.coreTiles _ _ (gatherShare m op)
    (windowElems_pos maxBytes hP) op.elemBytes_pos
  subst hb ht
  constructor
  · rintro ⟨hbytes, htotal⟩
    rw [hlen] at hbytes
    rw [hbytes, hfires] at htotal
    exact ⟨hbytes, htotal⟩
  · rintro ⟨hbytes, htotal⟩
    refine ⟨hbytes.trans hlen.symm, ?_⟩
    rw [hbytes]
    exact hfires.2 htotal

/-- One tile: the view is one window exactly if the share is not cut. -/
theorem window_eq_share_iff (hP : 0 < gatherShare m op) :
    gatherShare m op = windowElems m maxBytes op ↔
      (outDivisor (enterPass m) = 1 ∨ gatherShare m op = 1) ∧
      gatherShare m op ≤ shareBudget m maxBytes op := by
  have hround := @div_eq_window_iff _ 1 (outDivisor (enterPass m)) (shareBudget m maxBytes op) hP (one_dvd _)
  have hpos := outDivisor_pos (enterPass m)
  rw [Nat.div_one, mul_one, max_eq_left (show 1 ≤ outDivisor (enterPass m) from hpos)] at hround
  refine hround.trans (and_congr_left fun _ => or_congr_left ?_)
  omega

/-- **Lockstep of a gather**: where the lowering succeeds, the shim's fires and the cores' rounds
agree exactly for these flows. -/
theorem lockstep_iff (h : op.IsOutput m) (hP : 0 < gatherShare m op) {ppDepth : ℤ} {core : CoreTileCtx}
    {starts : List StartIo} (hcore : lowerCore m maxBytes ppDepth op = .ok core)
    (hflow : lowerFlow m maxBytes op = .ok starts) :
    Lockstep m maxBytes op core starts ↔ RoundsAgree m maxBytes op := by
  obtain ⟨-, hn, -, -, hlen⟩ := shimCtx_gather m maxBytes h.toIsGather h.tiles
  have hsum := repeats_output m maxBytes h hflow
  rcases Nat.lt_or_eq_of_le (show 1 ≤ op.coreTiles from h.tiles) with hT | hT
  · obtain ⟨hused, hrounds, hwrap, hround⟩ := shimCtx_several m maxBytes h.toIsGather hT
    have hfire : fireBytes (shimCtx m maxBytes op) = (gatherCtx m maxBytes op).perRoundBytes := by
      rw [fireBytes, hn, if_pos hT, hround]
    rw [lockstep_of_fire h hP hcore hfire hsum, hused, hrounds, hwrap]
    by_cases hd : HasDesc m
    · obtain ⟨hu, -, hr, -, -, hw, -, hl⟩ := gatherCtx_desc maxBytes h.toIsGather h.tiles hd
      obtain ⟨helems, hhost, hiters⟩ := gatherDesc_subTile h.tiles hd
      rw [hu, hr, hw, hl, Bool.true_and, hiters, hhost, helems,
        Nat.mul_left_inj op.elemBytes_pos.ne', ← Nat.cast_mul]
      constructor
      · rintro ⟨hbytes, hdvd, htotal⟩
        refine ⟨fun h1 => absurd hT (by omega), fun _ hnd => absurd hd hnd, fun _ _ => ⟨hbytes, hdvd, ?_, ?_⟩⟩
        · intro hloop
          rw [if_pos (decide_eq_true hloop)] at htotal
          exact htotal
        · intro hone
          rw [if_neg (by rw [decide_eq_true_eq]; exact hone)] at htotal
          exact (line_fires_iff h.tiles hP hdvd).1 htotal
      · intro hagree
        obtain ⟨hbytes, hdvd, hloop, hline⟩ := hagree.desc hT hd
        refine ⟨hbytes, hdvd, ?_⟩
        by_cases h1 : 1 < (subTile m op).host
        · rw [if_pos (decide_eq_true h1)]
          exact hloop h1
        · rw [if_neg (by rw [decide_eq_true_eq]; exact h1)]
          exact (line_fires_iff h.tiles hP hdvd).2 (hline h1)
    · obtain ⟨hu, hl⟩ := gatherCtx_rounds m maxBytes h.toIsGather h.tiles hd
      rw [hu, hl, Bool.false_and, if_neg Bool.false_ne_true, Nat.mul_left_inj op.elemBytes_pos.ne']
      constructor
      · rintro ⟨-, hdvd, htotal⟩
        refine ⟨fun h1 => absurd hT (by omega), fun _ _ => ?_, fun _ hd' => absurd hd' hd⟩
        exact (line_fires_iff h.tiles hP hdvd).1 htotal
      · intro hagree
        have hline := hagree.generic hT hd
        have hround' := ((shimRound_eq_window_iff hP).2 hline).1
        have hdvd : windowElems m maxBytes op ∣ gatherShare m op := hround' ▸ shimRound_dvd m maxBytes op
        exact ⟨hround', hdvd, (line_fires_iff h.tiles hP hdvd).2 hline⟩
  · have hshare : gatherShare m op = op.memrefType.numElements := by
      unfold gatherShare
      rw [← hT, Nat.div_one, ite_self]
    have hfire : fireBytes (shimCtx m maxBytes op) = gatherShare m op * op.elemBytes := by
      rw [fireBytes, hn, if_neg (by omega), hlen, hshare]
    rw [lockstep_of_fire h hP hcore hfire hsum, shimCtx_one m maxBytes hT.symm, Bool.false_and,
      if_neg Bool.false_ne_true, Nat.mul_left_inj op.elemBytes_pos.ne', window_eq_share_iff hP]
    constructor
    · rintro ⟨hwhole, -⟩
      exact ⟨fun _ => hwhole, fun h1 => absurd h1 (by omega), fun h1 => absurd h1 (by omega)⟩
    · intro hagree
      have hsingle := hagree.single hT.symm
      have hwhole := (window_eq_share_iff hP).2 hsingle
      have hdvd : windowElems m maxBytes op ∣ gatherShare m op := Dvd.intro 1 (by rw [← hwhole, mul_one])
      have hshim : shimRound m maxBytes op = windowElems m maxBytes op := by
        refine le_antisymm ?_ (window_le_shimRound hP hdvd)
        rw [← hwhole]
        exact Nat.le_of_dvd hP (shimRound_dvd m maxBytes op)
      refine ⟨hsingle, hdvd, (line_fires_iff h.tiles hP hdvd).2 ((shimRound_eq_window_iff hP).1 ⟨hshim, ?_⟩)⟩
      rw [← hwhole, ← hT, Nat.div_self hP]
      decide

/-- Two tiles of bytes side by side, `rows` by `cols` each. -/
def twoTiles (rows cols : ℕ) : FlowTransferOp where
  shimIsSender := false
  type := "many_to_one"
  coreTiles := 2
  dataId := none
  argIdx := 2
  memrefType := ⟨[rows, 2 * cols], 8⟩
  shimDims := none

/-- A GEMM with sub-tiles of `tileM` rows and `tileN` columns, and no round count for its kernel. -/
def subTiled (policy : Option String) (tileM tileRows tileN tileCols : ℕ) : Module where
  fullconnectAuto := some 1
  iterPolicy := policy
  partitionTiling :=
    { tileM := tileM, tileRows := tileRows, tileN := tileN, tileCols := tileCols, found := true }
  kernelTiling := {}
  tensorInfo := []

theorem twoTiles_isOutput (rows cols : ℕ) (policy : Option String) (tileM tileRows tileN tileCols : ℕ) :
    (twoTiles rows cols).IsOutput (subTiled policy tileM tileRows tileN tileCols) :=
  { receives := rfl, manyToOne := rfl, tiles := Nat.two_pos, plain := rfl }

/-- Sub-tiles of M and N, sent one at a time. -/
theorem lockstep_subTiled :
    ∃ core starts, lowerCore (subTiled none 2 4 2 4) 4096 2 (twoTiles 4 4) = .ok core ∧
      lowerFlow (subTiled none 2 4 2 4) 4096 (twoTiles 4 4) = .ok starts ∧
      Lockstep (subTiled none 2 4 2 4) 4096 (twoTiles 4 4) core starts := by
  have hcore : lowerCore (subTiled none 2 4 2 4) 4096 2 (twoTiles 4 4) =
      .ok ⟨1, 16, 4, 2, 4, false, false, 1⟩ := by
    unfold lowerCore
    rw [lowerShim_eq]
    rfl
  refine ⟨_, _, hcore, lowerFlow_eq ..,
    (lockstep_iff (twoTiles_isOutput ..) (by decide) hcore (lowerFlow_eq ..)).2 ?_⟩
  refine ⟨fun h => absurd h (by decide), fun _ hd => absurd (Or.inl ⟨by decide, by decide, rfl⟩) hd,
    fun _ _ => ?_⟩
  refine ⟨by decide, by decide, fun _ => ?_, fun h => absurd (by decide) h⟩
  rw [toNat_i32_of_lt (by decide)]
  decide

/-- Three rows of four bytes with a budget of eight: the shim expects 6 bytes a round, the cores send 8. And
sub-tiles of M without sub-tiles of N, under the policy with N outside: the shim takes one of two rounds. -/
theorem not_lockstep :
    (∀ core starts, lowerCore (subTiled none 3 3 4 4) 8 2 (twoTiles 3 4) = .ok core →
      ¬Lockstep (subTiled none 3 3 4 4) 8 (twoTiles 3 4) core starts) ∧
    ∀ core starts, lowerCore (subTiled (some "n_outer_m_inner") 2 4 4 4) 4096 2 (twoTiles 4 4) = .ok core →
      lowerFlow (subTiled (some "n_outer_m_inner") 2 4 4 4) 4096 (twoTiles 4 4) = .ok starts →
      ¬Lockstep (subTiled (some "n_outer_m_inner") 2 4 4 4) 4096 (twoTiles 4 4) core starts := by
  constructor
  · intro core starts hcore hlock
    have hout := twoTiles_isOutput 3 4 none 3 3 4 4
    have hd : ¬HasDesc (subTiled none 3 3 4 4) := by
      rintro (⟨-, hlt, -⟩ | hv)
      · exact absurd hlt (by decide)
      · exact absurd hv (by decide)
    obtain ⟨-, hn, -⟩ := shimCtx_gather (subTiled none 3 3 4 4) 8 hout.toIsGather hout.tiles
    obtain ⟨-, -, -, hround⟩ := shimCtx_several (subTiled none 3 3 4 4) 8 hout.toIsGather (by decide)
    have hbytes := hlock.bytes
    rw [coreBdLen_output _ _ hout hcore, fireBytes, hn, if_pos (by decide), hround,
      (gatherCtx_rounds _ _ hout.toIsGather hout.tiles hd).2] at hbytes
    exact absurd hbytes (by decide)
  · intro core starts hcore hflow hlock
    have hout := twoTiles_isOutput 4 4 (some "n_outer_m_inner") 2 4 4 4
    have hd : HasDesc (subTiled (some "n_outer_m_inner") 2 4 4 4) := Or.inl ⟨by decide, by decide, rfl⟩
    obtain ⟨-, hrounds, -⟩ := shimCtx_several (subTiled (some "n_outer_m_inner") 2 4 4 4) 4096
      hout.toIsGather (by decide)
    obtain ⟨-, -, hr, -⟩ := gatherCtx_desc 4096 hout.toIsGather hout.tiles hd
    have hsum := repeats_output _ _ hout hflow
    rw [hrounds, hr, if_neg (by decide)] at hsum
    obtain ⟨-, -, htotal⟩ := (lockstep_of_fire hout (by decide) hcore rfl hsum).1 hlock
    rw [toNat_i32_of_lt (by decide)] at htotal
    exact absurd htotal (by decide)

end AieHlc.Lower
