import AieHlc.Dma.Cover
import AieHlc.Lower.Schedule

/-!
# The lowering of a gather

A gather collects the output of several core tiles: the shim has one descriptor
for each of them and, where the output descriptor has host rounds, configures all
of them anew in every round.

* `gatherShare`, `shimRound`: elements one core contributes, and of a round without descriptor.
* `gatherCtx`: the context once the descriptors are emitted.
* `flowStarts_gather`: with more than one tile, the starts are those of `gatherBd`.
* `gatherBd_grid`: without truncation the descriptors are a `Grid`.
-/

namespace AieHlc.Lower

open List AieHlc.Dma AieHlc.Word

/-- A flow in which the shim receives from a group of core tiles. -/
structure FlowTransferOp.IsGather (op : FlowTransferOp) : Prop where
  receives : op.shimIsSender = false
  manyToOne : op.type = "many_to_one"

namespace FlowTransferOp

def elemBytes (op : FlowTransferOp) : ℕ := elementSizeBytes op.memrefType.elementTypeBitWidth

theorem elemBytes_pos (op : FlowTransferOp) : 0 < op.elemBytes := elementSizeBytes_pos _

end FlowTransferOp

theorem numElements_div (op : FlowTransferOp) :
    op.memrefType.numElements * elementSizeBytes op.memrefType.elementTypeBitWidth /
      elementSizeBytes op.memrefType.elementTypeBitWidth = op.memrefType.numElements :=
  Nat.mul_div_cancel _ op.elemBytes_pos

/-- The context before the descriptors are emitted. -/
def paramsCtx (m : Module) (maxPingPongBytes : ℕ) (op : FlowTransferOp) : FlowLoweringCtx :=
  shimBdParams (enterPass m) maxPingPongBytes (emitShimTileAndParams (enterPass m) { op := op })

/-- The context of a gather with its per-tile addressing. -/
def gatherCtx (m : Module) (maxPingPongBytes : ℕ) (op : FlowTransferOp) : FlowLoweringCtx :=
  gatherParams m (enterPass m) (paramsCtx m maxPingPongBytes op)

section Context

variable (m : Module) (maxBytes : ℕ) (op : FlowTransferOp)

/-- Elements one core contributes. The view of a channel-split convolution is one core's already. -/
def gatherShare : ℕ :=
  if op.memrefType.rank = 3 ∧ (detectConvHalo m.tensorInfo).valid = true then op.memrefType.numElements
  else op.memrefType.numElements / op.coreTiles

/-- Elements of a round, as the shim sizes it without a descriptor. -/
def shimRound : ℕ := pingPongSize (enterPass m) maxBytes true (gatherShare m op) op.elemBytes

theorem emitShimTileAndParams_spec (ps : BlueprintPassState) :
    let c := emitShimTileAndParams ps { op := op }
    c.op = op ∧ c.shimBdLen = op.memrefType.numElements * elementSizeBytes
      op.memrefType.elementTypeBitWidth := by
  unfold emitShimTileAndParams
  dsimp only
  split
  · exact ⟨rfl, rfl⟩
  · split <;> exact ⟨rfl, rfl⟩

theorem paramsCtx_op : (paramsCtx m maxBytes op).op = op := (emitShimTileAndParams_spec op _).1

theorem paramsCtx_shimBdLen : (paramsCtx m maxBytes op).shimBdLen =
    op.memrefType.numElements * elementSizeBytes op.memrefType.elementTypeBitWidth :=
  (emitShimTileAndParams_spec op _).2

theorem paramsCtx_numCoreTiles {op : FlowTransferOp} (h : 0 < op.coreTiles) :
    (paramsCtx m maxBytes op).numCoreTiles = op.coreTiles := by
  have hop := (emitShimTileAndParams_spec op (enterPass m)).1
  unfold paramsCtx shimBdParams
  simp only [hop]
  exact if_neg (by omega)

theorem paramsCtx_useOOO {op : FlowTransferOp} (h : op.IsGather) :
    (paramsCtx m maxBytes op).useOOO = true := by
  have hop := (emitShimTileAndParams_spec op (enterPass m)).1
  unfold paramsCtx shimBdParams
  simp only [hop, h.manyToOne, decide_true]

theorem paramsCtx_ooElementSizeBytes : (paramsCtx m maxBytes op).ooElementSizeBytes =
    elementSizeBytes op.memrefType.elementTypeBitWidth := by
  have hop := (emitShimTileAndParams_spec op (enterPass m)).1
  unfold paramsCtx shimBdParams
  simp only [hop]

theorem gatherParams_numCoreTiles (ps : BlueprintPassState) (c : FlowLoweringCtx) :
    (gatherParams m ps c).numCoreTiles = c.numCoreTiles := by
  unfold gatherParams descriptorGather genericGather
  dsimp only
  split
  · rfl
  · split <;> rfl

end Context

variable (m : Module) (maxBytes : ℕ) {op : FlowTransferOp}

/-- The share as the lowering computes it: a halo slab is not divided among the tiles. -/
theorem gatherShare_eq (op : FlowTransferOp) :
    (if (!(decide (op.memrefType.rank = 3) && (detectConvHalo (enterPass m).tensorInfo).valid)) = true then
      op.memrefType.numElements / op.coreTiles else op.memrefType.numElements) = gatherShare m op := by
  unfold gatherShare
  by_cases hc : op.memrefType.rank = 3 ∧ (detectConvHalo m.tensorInfo).valid = true
  · rw [if_pos hc, decide_eq_true hc.1, show (detectConvHalo (enterPass m).tensorInfo).valid = true from hc.2]
    rfl
  · rw [if_neg hc, if_pos]
    simp only [Bool.not_eq_true', Bool.and_eq_false_iff, decide_eq_false_iff_not]
    rw [not_and_or, Bool.not_eq_true] at hc
    exact hc

theorem perCoreElements_gather (h : op.IsGather) (hT : 0 < op.coreTiles) :
    perCoreElements (enterPass m) (emitShimTileAndParams (enterPass m) { op := op }) = gatherShare m op := by
  obtain ⟨hop, hlen⟩ := emitShimTileAndParams_spec op (enterPass m)
  unfold perCoreElements
  simp only [hop, hlen, h.manyToOne, decide_true, Bool.true_and,
    if_neg (show ¬op.coreTiles = 0 by omega), numElements_div]
  exact gatherShare_eq m op

theorem paramsCtx_gather (h : op.IsGather) (hT : 0 < op.coreTiles) :
    let c := paramsCtx m maxBytes op
    c.perRoundBytes = shimRound m maxBytes op * op.elemBytes ∧
      c.ooNumIterations = gatherShare m op / shimRound m maxBytes op ∧
      c.perTileShimLen = op.memrefType.numElements * op.elemBytes ∧ c.usedMRounds3D = false := by
  have hcore := perCoreElements_gather m h hT
  obtain ⟨hop, hlen⟩ := emitShimTileAndParams_spec op (enterPass m)
  have hround : pingPongSize (enterPass m) maxBytes (decide (op.type = "many_to_one")) (gatherShare m op)
      (elementSizeBytes op.memrefType.elementTypeBitWidth) = shimRound m maxBytes op := by
    rw [h.manyToOne]
    rfl
  unfold paramsCtx shimBdParams
  simp only [hop, hcore, hround]
  refine ⟨rfl, trivial, ?_, trivial⟩
  unfold shimLens
  simp [hop, h.receives, hlen, FlowTransferOp.elemBytes]

/-- The shim's descriptors change none of what the core side was sized by. -/
theorem emitShimBd_keeps (ps : BlueprintPassState) (c : FlowLoweringCtx) :
    (emitShimBd m ps c).op = c.op ∧ (emitShimBd m ps c).numCoreTiles = c.numCoreTiles ∧
      (emitShimBd m ps c).perTileShimLen = c.perTileShimLen ∧
      (emitShimBd m ps c).ooNumIterations = c.ooNumIterations ∧ (emitShimBd m ps c).useOOO = c.useOOO ∧
      (emitShimBd m ps c).isHaloSlab = c.isHaloSlab ∧ (emitShimBd m ps c).kAccumHaloSlab = c.kAccumHaloSlab ∧
      (emitShimBd m ps c).l2CorePerRoundLen = c.l2CorePerRoundLen := by
  by_cases hooo : c.useOOO = true ∧ 1 < c.numCoreTiles
  · have hctx : emitShimBd m ps c = emitShimBdOoo m ps c := if_pos hooo
    rw [hctx]
    unfold emitShimBdOoo gatherParams descriptorGather genericGather
    dsimp only
    split
    · exact ⟨rfl, rfl, rfl, rfl, rfl, rfl, rfl, rfl⟩
    · split <;> exact ⟨rfl, rfl, rfl, rfl, rfl, rfl, rfl, rfl⟩
  · have hctx : emitShimBd m ps c = emitShimBdNonOoo m ps c := if_neg hooo
    rw [hctx]
    exact ⟨rfl, rfl, rfl, rfl, rfl, rfl, rfl, rfl⟩

theorem shimCtx_op (op : FlowTransferOp) : (shimCtx m maxBytes op).op = op :=
  (emitShimBd_keeps m _ _).1.trans (paramsCtx_op m maxBytes op)

theorem shimCtx_gather (h : op.IsGather) (hT : 0 < op.coreTiles) :
    let c := shimCtx m maxBytes op
    c.op = op ∧ c.numCoreTiles = op.coreTiles ∧ c.useOOO = true ∧
      c.ooNumIterations = gatherShare m op / shimRound m maxBytes op ∧
      c.perTileShimLen = op.memrefType.numElements * op.elemBytes := by
  obtain ⟨-, hn, hlen, hiter, huse, -⟩ := emitShimBd_keeps m (enterPass m) (paramsCtx m maxBytes op)
  obtain ⟨-, hiter', hlen', -⟩ := paramsCtx_gather m maxBytes h hT
  refine ⟨shimCtx_op m maxBytes op, hn.trans (paramsCtx_numCoreTiles m maxBytes hT), ?_, ?_, ?_⟩
  · exact huse.trans (paramsCtx_useOOO m maxBytes h)
  · exact hiter.trans hiter'
  · exact hlen.trans hlen'

theorem shimCtx_ooo (h : op.IsGather) (hT : 1 < op.coreTiles) :
    shimCtx m maxBytes op = emitShimBdOoo m (enterPass m) (paramsCtx m maxBytes op) := by
  have hn := paramsCtx_numCoreTiles m maxBytes (show 0 < op.coreTiles by omega)
  exact if_pos ⟨paramsCtx_useOOO m maxBytes h, hn ▸ hT⟩

theorem shimCtx_nonOoo (hT : op.coreTiles = 1) :
    shimCtx m maxBytes op = emitShimBdNonOoo m (enterPass m) (paramsCtx m maxBytes op) := by
  have hn := paramsCtx_numCoreTiles m maxBytes (show 0 < op.coreTiles by omega)
  exact if_neg fun h => by
    have := hn ▸ h.2
    omega

theorem gatherCtx_numCoreTiles (h : 0 < op.coreTiles) :
    (gatherCtx m maxBytes op).numCoreTiles = op.coreTiles := by
  rw [gatherCtx, gatherParams_numCoreTiles, paramsCtx_numCoreTiles m maxBytes h]

/-- The descriptors of the starts of a gather, round by round. -/
def gatherRounds (c : FlowLoweringCtx) : List (List Bd) :=
  if c.usedMRounds3D && decide (1 < c.oooMRounds) then
    (range c.oooMRounds).map fun iv : ℕ =>
      (range c.numCoreTiles).map (gatherBd c (roundBaseOffset c.outDesc.roundDims (i32 iv)))
  else [(range c.numCoreTiles).map (gatherBd c 0)]

/-- **The lowering of a gather** of more than one tile. -/
theorem flowStarts_gather (h : op.IsGather) (hT : 1 < op.coreTiles) :
    (flowStarts m maxBytes op).map StartIo.bds = gatherRounds (gatherCtx m maxBytes op) := by
  obtain ⟨hop, -, huse, -⟩ := shimCtx_gather m maxBytes h (by omega)
  unfold flowStarts emitSchedule
  rw [if_neg (by rw [hop, h.receives]; simp), huse, shimCtx_ooo m maxBytes h hT]
  unfold gatherRounds
  -- the schedule asks the same question of the context with its descriptors
  show map StartIo.bds (if (true && (gatherCtx m maxBytes op).usedMRounds3D &&
    decide (1 < (gatherCtx m maxBytes op).oooMRounds)) = true then _ else _) = _
  rw [Bool.true_and]
  split
  · unfold emitScheduleOooOutput
    rw [map_map]
    rfl
  · rfl

/-- Step from tile to tile, where the output descriptor has none: the third dimension of the pull
conversion, or an even split. -/
def pullTileStep (op : FlowTransferOp) : ℤ :=
  (((op.shimDims.getD [])[2]?).map Dim.stride).getD
    (op.memrefType.numElements * elementSizeBytes op.memrefType.elementTypeBitWidth / op.coreTiles : ℕ)

theorem pullTileStep_of_dims {d0 d1 d2 : Dim} (h : op.shimDims = some [d0, d1, d2]) :
    pullTileStep op = d2.stride := by
  rw [pullTileStep, h]
  rfl

/-- The output descriptor of a gather that has one. -/
def gatherDesc (m : Module) (op : FlowTransferOp) : OutputTileDescriptor :=
  buildOutputTileDescriptor (enterPass m) op.memrefType op.coreTiles m.isNOuterPolicy
    (elementSizeBytes op.memrefType.elementTypeBitWidth) op.tiling

def HasDesc (m : Module) : Prop :=
  (0 < (enterPass m).tileM ∧ (enterPass m).tileM < (enterPass m).tileRows ∧ m.isFullConnectAuto = true) ∨
    (detectConvHalo m.tensorInfo).valid = true

variable {m} in
/-- Where there is an output descriptor, rounds, pitches and length are its own. -/
theorem gatherCtx_desc (h : op.IsGather) (hT : 0 < op.coreTiles) (hd : HasDesc m) :
    let c := gatherCtx m maxBytes op
    c.usedMRounds3D = true ∧ c.outDesc = gatherDesc m op ∧ c.oooMRounds = (gatherDesc m op).totalRounds ∧
      c.perTileStrideFromDims =
        (if 0 < (gatherDesc m op).perTileStrideBytes then (gatherDesc m op).perTileStrideBytes
        else pullTileStep op) ∧
      c.oooIterStepSize = (gatherDesc m op).iterStep ∧ c.oooIterWrap = (gatherDesc m op).iterWrap ∧
      c.perTileDims = some ((gatherDesc m op).bdDims.map fun d => ⟨i32 d.1, i32 d.2⟩) ∧
      c.perRoundBytes = (gatherDesc m op).bdLenBytes := by
  have hop := paramsCtx_op m maxBytes op
  have hlen := paramsCtx_shimBdLen m maxBytes op
  have hn := paramsCtx_numCoreTiles m maxBytes hT
  have heb := paramsCtx_ooElementSizeBytes m maxBytes op
  have hcond : ((decide (0 < (enterPass m).tileM ∧ (enterPass m).tileM < (enterPass m).tileRows) &&
      !op.shimIsSender && m.isFullConnectAuto) ||
      ((detectConvHalo (enterPass m).tensorInfo).valid && !op.shimIsSender)) = true := by
    rw [h.receives]
    rcases hd with ⟨h0, h1, h2⟩ | hv
    · rw [decide_eq_true ⟨h0, h1⟩, h2]
      rfl
    · rw [show (detectConvHalo (enterPass m).tensorInfo).valid = true from hv]
      simp
  unfold gatherCtx gatherParams
  simp only [hop]
  rw [if_pos hcond]
  unfold descriptorGather
  simp only [hn, heb, hlen]
  exact ⟨trivial, rfl, rfl, rfl, rfl, rfl, rfl, rfl⟩

/-- A gather without output descriptor, as the addressing asks for one. -/
theorem not_descCond {m : Module} (h : op.IsGather) (hd : ¬HasDesc m) :
    ¬((decide (0 < (enterPass m).tileM ∧ (enterPass m).tileM < (enterPass m).tileRows) &&
      !op.shimIsSender && m.isFullConnectAuto) ||
      ((detectConvHalo (enterPass m).tensorInfo).valid && !op.shimIsSender)) = true := by
  intro hc
  apply hd
  rw [h.receives] at hc
  simp only [Bool.not_false, Bool.and_true, Bool.or_eq_true, Bool.and_eq_true, decide_eq_true_eq] at hc
  rcases hc with ⟨⟨h0, h1⟩, h2⟩ | hv
  · exact Or.inl ⟨h0, h1, h2⟩
  · exact Or.inr hv

/-- Without one they come from the dimensions of the flow. -/
theorem gatherCtx_generic (h : op.IsGather) (hd : ¬HasDesc m) {d0 d1 d2 : Dim}
    (hdims : op.shimDims = some [d0, d1, d2]) {n : ℕ} (hn : (paramsCtx m maxBytes op).ooNumIterations = n) :
    let c := gatherCtx m maxBytes op
    let rows := if 1 < n then d1.wrap.tdiv n else d1.wrap
    c.usedMRounds3D = false ∧ c.perTileStrideFromDims = d2.stride ∧ c.oooIterWrap = i32 n ∧
      c.oooIterStepSize = (if 1 < i32 n then i32 (rows * d1.stride) else 0) ∧
      c.perTileDims = some [d0, ⟨d1.stride, i32 rows⟩] := by
  have hop := paramsCtx_op m maxBytes op
  have hused : (paramsCtx m maxBytes op).usedMRounds3D = false := rfl
  have hcond := not_descCond h hd
  unfold gatherCtx gatherParams
  simp only [hop, hn]
  rw [if_neg hcond]
  unfold genericGather roundRows
  simp only [hop, hdims, hn, hused]
  exact ⟨trivial, rfl, trivial, rfl, rfl⟩

theorem i32_mul_i32 {a b : ℕ} (h : a * b < 2 ^ 31) : i32 (i32 a * i32 b) = (a * b : ℕ) := by
  rcases Nat.eq_zero_or_pos a with rfl | ha
  · simp
  · rcases Nat.eq_zero_or_pos b with rfl | hb
    · simp
    · have hle : a ≤ a * b := Nat.le_mul_of_pos_right a hb
      have hle' : b ≤ a * b := Nat.le_mul_of_pos_left b ha
      rw [i32_of_lt (by omega), i32_of_lt (by omega), ← Nat.cast_mul, i32_of_lt h]

theorem roundBaseOffset_single (w s : ℕ) (iv : ℤ) : roundBaseOffset [(w, s)] iv = i32 (iv * i32 s) := by
  simp [roundBaseOffset, roundOffs]

/-- The starts of a gather whose output descriptor has a single host dimension, also where there is only one
round and the schedule has no loop. -/
theorem flowStarts_desc {m : Module} (h : op.IsGather) (hT : 1 < op.coreTiles) (hd : HasDesc m)
    {w perRound : ℕ}
    (hpos : 0 < (gatherDesc m op).totalRounds) (hdims : (gatherDesc m op).roundDims = [(w, perRound)]) :
    (flowStarts m maxBytes op).map StartIo.bds = (range (gatherDesc m op).totalRounds).map fun r : ℕ =>
      (range op.coreTiles).map (gatherBd (gatherCtx m maxBytes op) (i32 (i32 r * i32 perRound))) := by
  have hT' : 0 < op.coreTiles := by omega
  obtain ⟨hused, hdesc, hrounds, -⟩ := gatherCtx_desc maxBytes h hT' hd
  rw [flowStarts_gather m maxBytes h hT, gatherRounds, hused, Bool.true_and, hdesc, hdims, hrounds,
    gatherCtx_numCoreTiles m maxBytes hT']
  split
  · simp only [roundBaseOffset_single]
  · rename_i hle
    have h1 : (gatherDesc m op).totalRounds = 1 := by
      have : ¬1 < (gatherDesc m op).totalRounds := by simpa using hle
      omega
    have h0 : i32 (i32 (0 : ℕ) * i32 perRound) = 0 := by simp
    rw [h1, range_one, map_singleton, h0]

/-- The lowering of a gather from one tile: a single descriptor of the whole buffer, without iteration. -/
theorem flowStarts_single (h : op.IsGather) (hT : op.coreTiles = 1) :
    (flowStarts m maxBytes op).map StartIo.bds =
      [[⟨0, i32 (op.memrefType.numElements * elementSizeBytes op.memrefType.elementTypeBitWidth : ℕ),
        op.shimDims.getD [], 0, 0⟩]] := by
  have hop := paramsCtx_op m maxBytes op
  have hctx := shimCtx_nonOoo m maxBytes hT
  obtain ⟨-, -, hlen, -⟩ := paramsCtx_gather m maxBytes h (by omega)
  have hbds : (shimCtx m maxBytes op).shimBds = [⟨0, i32 (paramsCtx m maxBytes op).perTileShimLen,
      op.shimDims.getD [], 0, 0⟩] := by
    rw [hctx]
    unfold emitShimBdNonOoo
    simp only [hop, h.receives, Bool.false_eq_true, false_and, if_false, kAccumIter]
    rfl
  have hused : (shimCtx m maxBytes op).usedMRounds3D = false := by
    rw [hctx]
    rfl
  unfold flowStarts emitSchedule
  rw [if_neg (by rw [shimCtx_op, h.receives]; simp), if_neg (by rw [hused]; simp)]
  unfold emitScheduleStraightLine
  rw [map_singleton, hbds, hlen, FlowTransferOp.elemBytes]

section Grid

variable {c : FlowLoweringCtx} {tiles rounds iters perTile perRound : ℕ} {perIter : ℤ} {ds : List Dim}
  (hP : c.perTileStrideFromDims = perTile) (hI : c.oooIterWrap = iters) (hE : c.oooIterStepSize = perIter)
  (hds : c.perTileDims = some ds) (hne : ds ≠ [])

include hP hI hE hds hne

/-- **The descriptors of a gather on a grid**: nothing is truncated where the last base fits. -/
theorem gatherBd_grid (hbase : ∀ r < rounds, ∀ t < tiles, t * perTile + r * perRound < 2 ^ 31) :
    Grid tiles rounds iters perTile perRound perIter ds fun r t =>
    gatherBd c (i32 (i32 r * i32 perRound)) t where
  offset := by
    intro r hr t ht
    have hsum : r * perRound + t * perTile < 2 ^ 31 := by rw [add_comm]; exact hbase r hr t ht
    have hr' : r * perRound < 2 ^ 31 := lt_of_le_of_lt (Nat.le_add_right _ _) hsum
    have ht' : t * perTile < 2 ^ 31 := lt_of_le_of_lt (Nat.le_add_left _ _) hsum
    show i32 (i32 (i32 r * i32 perRound) + i32 (t * c.perTileStrideFromDims)) = _
    rw [hP, i32_mul_i32 hr', ← Nat.cast_mul t, i32_of_lt ht', ← Nat.cast_add, i32_of_lt hsum]
    push_cast
    ring
  dims := by
    intro r _ t _
    show c.perTileDims.getD [] = ds
    rw [hds, Option.getD_some]
  iterStep := fun _ _ _ _ => hE
  iterWrap := fun _ _ _ _ => hI
  dims_ne := hne

theorem gatherBd_grid_one (hbase : ∀ t < tiles, t * perTile < 2 ^ 31) :
    Grid tiles 1 iters perTile 0 perIter ds fun _ => gatherBd c 0 := by
  have hgrid : Grid tiles 1 iters perTile (0 : ℕ) perIter ds fun r t =>
      gatherBd c (i32 (i32 r * i32 (0 : ℕ))) t :=
    gatherBd_grid hP hI hE hds hne fun r _ t ht => by simpa using hbase t ht
  simpa using hgrid

end Grid

end AieHlc.Lower
