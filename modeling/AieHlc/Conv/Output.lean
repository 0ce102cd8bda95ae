import AieHlc.Conv.Share
import AieHlc.Lower.Gather
import Mathlib.Data.Fintype.Basic
import Mathlib.Tactic.FinCases

/-!
# Convolution output, from tiling attribute to DMA

The lowering of the gather of a mesh row's output, with a width-split halo on the
input and a 3-dimensional tiling attribute on the output. Mesh columns are tiles,
on-core rows are host rounds, the remaining dimension is the iteration.

* `dimRoles_eq`: the roles are read off the axes, in any order of the dimensions.
* `convDesc_scatter`, `convDesc_tileMajor`: the output descriptor in the two layouts.
* `conv_output_iff`: which tilings are placed right.
-/

namespace AieHlc.Conv

open List AieHlc.Dma AieHlc.Word AieHlc.Lower

/-- A module whose input has a width-split halo. -/
structure ConvModule where
  module : Module
  halo : (detectConvHalo module.tensorInfo).valid = true

namespace ConvOut

variable (s : ConvOut)

/-- Extent of a dimension in the buffer of one core: only the mesh splits it. -/
def view (k : Fin 3) : ℕ := if k = s.iter then (s.d k).extent else (s.d k).outer.slice

def memref : MemRefType := ⟨[s.view 0, s.view 1, s.view 2], s.bitWidth⟩

/-- What a flow that gathers the output may choose. -/
structure OutputFlow where
  /-- type of the whole output -/
  root : MemRefType
  dataId : Option ℤ := none
  argIdx : ℤ := -1

def outputFlow (f : OutputFlow) : FlowTransferOp where
  shimIsSender := false
  type := "many_to_one"
  coreTiles := s.numCoreTiles
  dataId := f.dataId
  argIdx := f.argIdx
  memrefType := s.memref
  shimDims := pullShimDims f.root s.memref s.numCoreTiles
  tiling := some [s.d 0, s.d 1, s.d 2]

/-- The starts place the output, scattered into the tensor or tile by tile. -/
def Places (tileMajor : Bool) (starts : List StartIo) : Prop :=
  if tileMajor then
    ∃ (iters : ℕ) (bd : ℕ → Bd),
      starts.map StartIo.bds = [(range s.numCoreTiles).map bd] ∧ s.TileMajor iters bd
  else
    ∃ (rounds iters : ℕ) (bd : ℕ → ℕ → Bd),
      starts.map StartIo.bds = (range rounds).map (fun r => (range s.numCoreTiles).map (bd r)) ∧
        s.Scattered rounds iters bd

theorem outputFlow_isGather (f : OutputFlow) : (s.outputFlow f).IsGather := ⟨rfl, rfl⟩

/-! ## The output descriptor -/

theorem dimRoles_eq : dimRoles s.d = ⟨s.row, s.col, s.iter⟩ := by
  have hr := s.row_axis
  have hc := s.col_axis
  have hi := s.iter_axis
  generalize s.row = a, s.col = b, s.iter = c at *
  fin_cases a <;> fin_cases b <;> fin_cases c <;> simp_all [dimRoles]

theorem perWord_bytes (hw : 8 ≤ s.bitWidth) : 32 / s.bitWidth * elementSizeBytes s.bitWidth = 4 := by
  rcases elementSizeBytes_cases s.bitWidth_dvd with ⟨-, h⟩ | ⟨hlt, -⟩
  · exact h
  · exact absurd hw (Nat.not_le_of_lt hlt)

theorem rmStride_one (hw : 8 ≤ s.bitWidth) : rmStride s.d 1 * elementSizeBytes s.bitWidth = s.pitch 1 := by
  show 1 * (s.d 2).extent * elementSizeBytes s.bitWidth = 4 * s.rowWords
  rw [s.extent_two, ← s.perWord_bytes hw]
  ring

theorem rmStride_zero (hw : 8 ≤ s.bitWidth) : rmStride s.d 0 * elementSizeBytes s.bitWidth = s.pitch 0 := by
  show 1 * (s.d 2).extent * (s.d 1).extent * elementSizeBytes s.bitWidth = 4 * ((s.d 1).extent * s.rowWords)
  rw [s.extent_two, ← s.perWord_bytes hw]
  ring

theorem blk_mul_rmStride (hw : 8 ≤ s.bitWidth) (k : Fin 3) :
    s.blk k * rmStride s.d k * elementSizeBytes s.bitWidth = s.step k := by
  match k with
  | 0 =>
    rw [mul_assoc, s.rmStride_zero hw]
    rfl
  | 1 =>
    rw [mul_assoc, s.rmStride_one hw]
    rfl
  | 2 =>
    show s.blk 2 * 1 * elementSizeBytes s.bitWidth = s.blkWords * 4
    rw [s.blk_two, ← s.perWord_bytes hw]
    ring

/-- The length the descriptor computes. -/
theorem descLen : Counted s.bitWidth (1 * s.blk 0 * s.blk 1 * s.blk 2 * elementSizeBytes s.bitWidth)
      s.blockBytes := by
  have h := counted_words s.bitWidth_dvd (s.blk 0 * (s.blk 1 * s.blkWords))
  have hlen : 32 / s.bitWidth * (s.blk 0 * (s.blk 1 * s.blkWords)) = 1 * s.blk 0 * s.blk 1 * s.blk 2 := by
    rw [s.blk_two]
    ring
  have hbytes : 4 * (s.blk 0 * (s.blk 1 * s.blkWords)) = s.blockBytes := by
    rw [blockBytes]
    ring
  rwa [hlen, hbytes] at h

theorem convDesc_len (tileMajor : Bool) (w eb : ℕ) :
    (convDesc tileMajor w eb s.d).bdLenBytes = 1 * s.blk 0 * s.blk 1 * s.blk 2 * eb := by
  cases tileMajor <;> rfl

/-- Host rounds in the scattered layout: the on-core rows, with a single host dimension. -/
theorem convDesc_rounds (w eb : ℕ) :
    (convDesc false w eb s.d).totalRounds = s.rounds ∧
      ∃ perRound, (convDesc false w eb s.d).roundDims = [(s.rounds, perRound)] := by
  unfold convDesc
  simp only [s.dimRoles_eq, Bool.false_eq_true, if_false]
  exact ⟨s.chunks_row, _, by rw [show (s.d s.row).rounds = s.rounds from s.chunks_row]⟩

theorem convDesc_scatter (hw : 8 ≤ s.bitWidth) :
    convDesc false s.bitWidth (elementSizeBytes s.bitWidth) s.d =
      { bdDims := [(4, s.wrap 2), (s.pitch 1, s.wrap 1), (s.pitch 0, s.wrap 0)]
        roundDims := [(s.rounds, s.step s.row)]
        perTileStrideBytes := s.step s.col
        bdLenBytes := s.blockBytes
        totalRounds := s.rounds
        iterStep := i32 (s.step s.iter)
        iterWrap := i32 s.iters } := by
  have hstep : ∀ k, (s.d k).blk * rmStride s.d k * elementSizeBytes s.bitWidth = s.step k :=
    s.blk_mul_rmStride hw
  have hlen : 1 * (s.d 0).blk * (s.d 1).blk * (s.d 2).blk * elementSizeBytes s.bitWidth = s.blockBytes :=
    s.descLen.exact hw
  have hrow : (s.d s.row).rounds = s.rounds := s.chunks_row
  unfold convDesc
  simp only [s.dimRoles_eq, Bool.false_eq_true, if_false, hstep, hlen, hrow, s.rmStride_one hw,
    s.rmStride_zero hw]
  rfl

theorem convDesc_tileMajor (w eb : ℕ) (hB : 1 * s.blk 0 * s.blk 1 * s.blk 2 * eb = s.blockBytes) :
    convDesc true w eb s.d =
      { bdDims := if s.blockBytes % 64 = 0 then [(4, 64 / 4), (64, s.blockBytes / 64)]
        else [(4, s.blockBytes / 4)]
        roundDims := [(1, 0)]
        perTileStrideBytes := (s.rounds * s.iters * s.blockBytes : ℕ)
        bdLenBytes := s.blockBytes
        totalRounds := 1
        iterStep := i32 s.blockBytes
        iterWrap := i32 (s.rounds * s.iters : ℕ) } := by
  have hB' : 1 * (s.d 0).blk * (s.d 1).blk * (s.d 2).blk * eb = s.blockBytes := hB
  have hrow : (s.d s.row).rounds = s.rounds := s.chunks_row
  have hiters : i32 (s.d s.iter).outer.rounds = s.iters := i32_of_lt s.iters_lt
  unfold convDesc tileMajor
  simp only [s.dimRoles_eq, if_true, hB', hrow, hiters]
  push_cast
  rfl

variable {s} (g : ConvModule) (f : OutputFlow) (maxBytes : ℕ)

theorem gatherDesc_conv : gatherDesc g.module (s.outputFlow f) =
    convDesc (decide (g.module.outputTileMajor ≠ 0)) s.bitWidth (elementSizeBytes s.bitWidth) s.d := by
  have hvalid : (detectConvHalo (enterPass g.module).tensorInfo).valid = true := g.halo
  have hd : ![s.d 0, s.d 1, s.d 2] = s.d := by
    funext k
    match k with
    | 0 => rfl
    | 1 => rfl
    | 2 => rfl
  have hrank : s.memref.rank = 3 := rfl
  show buildOutputTileDescriptor _ s.memref _ _ _ (some [s.d 0, s.d 1, s.d 2]) = _
  unfold buildOutputTileDescriptor
  simp only [hvalid, if_true, hrank, hd]
  rfl

theorem hasDesc_conv : HasDesc g.module := Or.inr g.halo

/-! ## Several tiles, scattered -/

/-- The dimensions as the descriptor carries them, in 32 bits. -/
def dims32 (s : ConvOut) : List Dim :=
  [⟨i32 (4 : ℕ), i32 (s.wrap 2)⟩, ⟨i32 (s.pitch 1), i32 (s.wrap 1)⟩, ⟨i32 (s.pitch 0), i32 (s.wrap 0)⟩]

theorem same32 {p n : ℕ} (hn : n < 2 ^ 31) (hp : n = 1 ∨ p < 2 ^ 31) : Dim.Same ⟨i32 p, i32 n⟩ ⟨p, n⟩ := by
  refine ⟨i32_of_lt hn, hp.imp (fun h => ?_) i32_of_lt⟩
  rw [i32_of_lt hn, h]
  rfl

/-- A step is truncated only where nothing is stepped over. -/
theorem dims32_same (s : ConvOut) : Forall₂ Dim.Same s.dims32 s.dims := by
  have h4 : (4 : ℕ) < 2 ^ 31 := by decide
  exact .cons (same32 (s.wrap_lt 2) (Or.inr h4)) (.cons (same32 (s.wrap_lt 1) (s.pitch_lt 1))
    (.cons (same32 (s.wrap_lt 0) (s.pitch_lt 0)) .nil))

theorem flowStarts_scatter (htm : g.module.outputTileMajor = 0) (hT : 1 < s.numCoreTiles) :
    ∃ perRound, (8 ≤ s.bitWidth → perRound = s.step s.row) ∧
      (flowStarts g.module maxBytes (s.outputFlow f)).map StartIo.bds = (range s.rounds).map fun r : ℕ =>
        (range s.numCoreTiles).map
          (gatherBd (gatherCtx g.module maxBytes (s.outputFlow f)) (i32 (i32 r * i32 (perRound : ℕ)))) := by
  have hconv := gatherDesc_conv (s := s) g f
  rw [decide_eq_false (not_not.2 htm)] at hconv
  obtain ⟨htotal, perRound, hdims⟩ := s.convDesc_rounds s.bitWidth (elementSizeBytes s.bitWidth)
  refine ⟨perRound, fun hw => ?_, ?_⟩
  · rw [s.convDesc_scatter hw] at hdims
    simpa using hdims.symm
  · rw [← htotal, ← hconv]
    refine flowStarts_desc maxBytes (s.outputFlow_isGather f) hT (hasDesc_conv g) ?_
      ((congrArg _ hconv).trans hdims)
    rw [hconv, htotal]
    exact Nat.zero_lt_of_lt s.rounds_gt

theorem gatherCtx_scatter (htm : g.module.outputTileMajor = 0) (hw : 8 ≤ s.bitWidth) :
    let c := gatherCtx g.module maxBytes (s.outputFlow f)
    c.perTileStrideFromDims = s.step s.col ∧ c.oooIterStepSize = i32 (s.step s.iter) ∧
      c.oooIterWrap = s.iters ∧
      c.perTileDims = some s.dims32 ∧ c.perRoundBytes = s.blockBytes := by
  obtain ⟨-, -, -, hP, hE, hI, hds, hlen⟩ :=
    gatherCtx_desc maxBytes (s.outputFlow_isGather f) s.numCoreTiles_pos (hasDesc_conv g)
  have hconv := gatherDesc_conv (s := s) g f
  rw [decide_eq_false (not_not.2 htm), s.convDesc_scatter hw] at hconv
  rw [hconv] at hP hE hI hds hlen
  have hpos : (0 : ℤ) < s.step s.col := by
    have := s.four_le_step s.col
    omega
  refine ⟨?_, hE, ?_, hds, hlen⟩
  · rw [hP, if_pos hpos]
  · rw [hI, i32_of_lt s.iters_lt]

theorem gatherCtx_len : (gatherCtx g.module maxBytes (s.outputFlow f)).perRoundBytes =
    1 * s.blk 0 * s.blk 1 * s.blk 2 * elementSizeBytes s.bitWidth := by
  obtain ⟨-, -, -, -, -, -, -, hlen⟩ :=
    gatherCtx_desc maxBytes (s.outputFlow_isGather f) s.numCoreTiles_pos (hasDesc_conv g)
  rw [hlen, gatherDesc_conv, s.convDesc_len]

/-- Only elements of a byte or more are sent in fires as long as a block. -/
theorem byte_le_of_len {b : ℤ} {t : ℕ}
    (h : (gatherBd (gatherCtx g.module maxBytes (s.outputFlow f)) b t).len.toNat = s.blockBytes) :
    8 ≤ s.bitWidth := by
  rw [gatherBd, gatherCtx_len] at h
  exact ((s.descLen.toNat_i32_eq_iff s.blockBytes_pos).1 h).1

theorem places_scatter_iff (htm : g.module.outputTileMajor = 0) (hT : 1 < s.numCoreTiles) :
    s.Places false (flowStarts g.module maxBytes (s.outputFlow f)) ↔ 8 ≤ s.bitWidth := by
  obtain ⟨perRound, hround, hbds'⟩ := flowStarts_scatter g f maxBytes htm hT
  constructor
  · rintro ⟨rounds, iters, bd, hbds, hp⟩
    rw [hbds] at hbds'
    obtain ⟨hrounds, hall⟩ := map_range_inj hbds'
    have hpos : 0 < rounds := by
      rw [hrounds]
      exact Nat.zero_lt_of_lt s.rounds_gt
    have hbd := (map_range_inj (hall 0 hpos)).2 0 s.numCoreTiles_pos
    -- the first fire of tile 0
    have hiters : 0 < iters := by
      rw [← hp.iterations 0 hpos 0 s.numCoreTiles_pos]
      exact Bd.iterations_pos _
    have hlen := (hp.fire 0 s.numCoreTiles_pos 0 hpos 0 hiters).length_eq
    rw [hbd, s.length_block, Bd.length_fire] at hlen
    exact byte_le_of_len g f maxBytes hlen
  · intro hw
    obtain ⟨hP, hE, hI, hds, hlen⟩ := gatherCtx_scatter (s := s) g f maxBytes htm hw
    obtain rfl := hround hw
    have hgrid := gatherBd_grid hP hI hE hds (cons_ne_nil _ _) fun r hr t ht => s.base_lt hr ht
    have hiter : s.iters = 1 ∨ i32 (s.step s.iter) = s.step s.iter := by
      rw [← s.chunks_iter]
      exact (s.step_lt s.iter).imp id i32_of_lt
    refine ⟨s.rounds, s.iters, _, hbds', s.scattered_of_grid hiter s.dims32_same hgrid fun r t => ?_⟩
    rw [gatherBd, hlen, i32_of_lt s.blockBytes_fits]

/-! ## Several tiles, tile by tile -/

theorem flowStarts_tileMajor (htm : g.module.outputTileMajor ≠ 0) (hT : 1 < s.numCoreTiles) :
    (flowStarts g.module maxBytes (s.outputFlow f)).map StartIo.bds =
      [(range s.numCoreTiles).map (gatherBd (gatherCtx g.module maxBytes (s.outputFlow f)) 0)] := by
  have hconv := gatherDesc_conv (s := s) g f
  rw [decide_eq_true htm] at hconv
  have hone : (gatherDesc g.module (s.outputFlow f)).totalRounds = 1 := congrArg _ hconv
  have hbds := flowStarts_desc maxBytes (s.outputFlow_isGather f) hT (hasDesc_conv g)
    (hone ▸ Nat.one_pos) (congrArg _ hconv)
  rw [hbds, hone]
  simp [outputFlow]

theorem gatherCtx_tileMajor_iterWrap (htm : g.module.outputTileMajor ≠ 0) :
    (gatherCtx g.module maxBytes (s.outputFlow f)).oooIterWrap = (s.rounds * s.iters : ℕ) := by
  obtain ⟨-, -, -, -, -, hI, -⟩ :=
    gatherCtx_desc maxBytes (s.outputFlow_isGather f) s.numCoreTiles_pos (hasDesc_conv g)
  have hiters : i32 (s.d s.iter).outer.rounds = s.iters := i32_of_lt s.iters_lt
  have hrow : (s.d s.row).rounds = s.rounds := s.chunks_row
  rw [hI, gatherDesc_conv, decide_eq_true htm]
  unfold convDesc tileMajor
  simp only [s.dimRoles_eq, if_true, hiters, hrow]
  rw [← Nat.cast_mul, i32_of_lt s.coreRounds_lt]

theorem tileMajor_dims (s : ConvOut) :
    ∃ ds : List Dim, ds ≠ [] ∧ offsets (⟨1, 4⟩ :: ds) = offsets [⟨1, s.blockBytes⟩] ∧
    (if s.blockBytes % 64 = 0 then [(4, 64 / 4), (64, s.blockBytes / 64)] else [(4, s.blockBytes / 4)]).map
      (fun d : ℕ × ℕ => (⟨i32 d.1, i32 d.2⟩ : Dim)) = ds := by
  have hfit := s.blockBytes_fits
  have h4 : i32 (4 : ℕ) = 4 := i32_of_lt (by decide)
  have h16 : i32 (16 : ℕ) = 16 := i32_of_lt (by decide)
  have h64 : i32 (64 : ℕ) = 64 := i32_of_lt (by decide)
  split
  · rename_i hmod
    have hdiv : s.blockBytes / 64 * 64 = s.blockBytes := Nat.div_mul_cancel (Nat.dvd_of_mod_eq_zero hmod)
    have hq : i32 (s.blockBytes / 64 : ℕ) = (s.blockBytes / 64 : ℕ) := i32_of_lt (by omega)
    refine ⟨[⟨4, (16 : ℕ)⟩, ⟨64, (s.blockBytes / 64 : ℕ)⟩], cons_ne_nil _ _, ?_, ?_⟩
    · refine (offsets_run (n := 4) rfl 16 _).trans ((offsets_run (n := 16 * 4) rfl _ _).trans ?_)
      rw [show s.blockBytes / 64 * (16 * 4) = s.blockBytes from hdiv]
    · simp only [map_cons, map_nil, h4, h64, hq, Nat.reduceDiv, h16]
      rfl
  · have hdiv : s.blockBytes / 4 * 4 = s.blockBytes := Nat.div_mul_cancel s.four_dvd_blockBytes
    have hq : i32 (s.blockBytes / 4 : ℕ) = (s.blockBytes / 4 : ℕ) := i32_of_lt (by omega)
    refine ⟨[⟨4, (s.blockBytes / 4 : ℕ)⟩], cons_ne_nil _ _, ?_, ?_⟩
    · refine (offsets_run (n := 4) rfl _ _).trans ?_
      rw [hdiv]
    · simp only [map_cons, map_nil, h4, hq]

theorem places_tileMajor_iff (htm : g.module.outputTileMajor ≠ 0) (hT : 1 < s.numCoreTiles) :
    s.Places true (flowStarts g.module maxBytes (s.outputFlow f)) ↔ 8 ≤ s.bitWidth := by
  have hbds' := flowStarts_tileMajor g f maxBytes htm hT
  have hI := gatherCtx_tileMajor_iterWrap (s := s) g f maxBytes htm
  have hpos : 0 < s.rounds * s.iters := Nat.mul_pos (Nat.zero_lt_of_lt s.rounds_gt) s.iters_pos
  constructor
  · rintro ⟨iters, bd, hbds, hp⟩
    rw [hbds] at hbds'
    have hbd := (map_range_inj (List.cons.inj hbds').1).2
    have hiters : iters = s.rounds * s.iters := by
      rw [← hp.iterations 0 s.numCoreTiles_pos, hbd 0 s.numCoreTiles_pos]
      show (if 0 < (gatherCtx _ _ _).oooIterWrap then (gatherCtx _ _ _).oooIterWrap.toNat else 1) = _
      rw [hI, if_pos (by omega), Int.toNat_natCast]
    -- all fires are of one length, and together as long as the share
    obtain ⟨len, hlen⟩ : ∃ len, ∀ t,
        (gatherBd (gatherCtx g.module maxBytes (s.outputFlow f)) 0 t).len.toNat = len :=
      ⟨(i32 (gatherCtx g.module maxBytes (s.outputFlow f)).perRoundBytes).toNat, fun _ => rfl⟩
    have hcount : s.numCoreTiles * (s.rounds * s.iters * len) = s.bytes := by
      have h := congrArg length hp.stream
      rw [length_map, length_range] at h
      rw [← hiters, ← h]
      have hfire : (range s.numCoreTiles).flatMap (fun t => (range iters).flatMap (bd t).fire) =
          (range s.numCoreTiles).flatMap fun t => (range iters).flatMap
            (gatherBd (gatherCtx g.module maxBytes (s.outputFlow f)) 0 t).fire :=
        flatMap_congr fun t ht => by rw [hbd t (mem_range.1 ht)]
      rw [hfire]
      exact (length_flatMap_range fun t => length_flatMap_range fun i => by rw [Bd.length_fire, hlen]).symm
    rw [s.bytes_eq, ← mul_assoc s.rounds] at hcount
    have hB := Nat.eq_of_mul_eq_mul_left hpos (Nat.eq_of_mul_eq_mul_left s.numCoreTiles_pos hcount)
    exact byte_le_of_len g f maxBytes ((hlen 0).trans hB)
  · intro hw
    obtain ⟨-, -, -, hP, hE, -, hds, hlen⟩ :=
      gatherCtx_desc maxBytes (s.outputFlow_isGather f) s.numCoreTiles_pos (hasDesc_conv g)
    have hconv := gatherDesc_conv (s := s) g f
    rw [decide_eq_true htm, s.convDesc_tileMajor _ _ (s.descLen.exact hw)] at hconv
    rw [hconv] at hP hE hds hlen
    obtain ⟨ds, hne, hrun, heq⟩ := s.tileMajor_dims
    have hcore := Nat.mul_pos hpos s.blockBytes_pos
    have hP' := hP.trans (if_pos (Int.ofNat_lt.2 hcore))
    have hE' := hE.trans (i32_of_lt s.blockBytes_fits)
    have hgrid := gatherBd_grid_one hP' hI hE' (hds.trans (congrArg some heq)) hne
        fun t (ht : t < s.numCoreTiles) => by
      have hle := s.core_le
      have hlt := Nat.mul_le_mul_right (s.rounds * s.iters * s.blockBytes)
        (show t + 1 ≤ s.numCoreTiles from ht)
      rw [Nat.succ_mul] at hlt
      omega
    refine ⟨_, _, hbds', s.tileMajor_of_grid hrun hgrid fun t => ?_⟩
    rw [gatherBd, hlen, i32_of_lt s.blockBytes_fits]

/-! ## One tile -/

section

variable (hT : s.numCoreTiles = 1)

include hT

theorem view_single (k : Fin 3) : s.view k = s.blk k * s.chunks k := by
  obtain ⟨-, hri, hci⟩ := s.distinct
  unfold view
  rcases s.role_cases k with rfl | rfl | rfl
  · rw [if_neg hri, s.blk_row, s.chunks_row, rounds, s.core_total]
  · rw [if_neg hci, s.blk_col, s.chunks_col, hT, mul_one]
  · rw [if_pos rfl, s.blk_iter, s.chunks_iter]
    exact (s.level s.iter).symm

theorem bufferLen : Counted s.bitWidth (s.memref.numElements * elementSizeBytes s.bitWidth) s.bytes := by
  have helems : 32 / s.bitWidth *
    (s.blk 0 * s.chunks 0 * (s.blk 1 * s.chunks 1 * (s.blkWords * s.chunks 2))) =
      s.memref.numElements := by
    show _ = 1 * s.view 0 * s.view 1 * s.view 2
    rw [view_single hT, view_single hT, view_single hT, s.blk_two]
    ring
  have hbytes : 4 * (s.blk 0 * s.chunks 0 * (s.blk 1 * s.chunks 1 * (s.blkWords * s.chunks 2))) =
      s.bytes := by
    rw [← bytes_of_words s.bitWidth_dvd, bytes, s.blk_two]
    congr 2
    ring
  rw [← helems, ← hbytes]
  exact counted_words s.bitWidth_dvd _

theorem flowStarts_oneTile : (flowStarts g.module maxBytes (s.outputFlow f)).map StartIo.bds =
    [[⟨0, i32 (s.memref.numElements * elementSizeBytes s.bitWidth : ℕ), [], 0, 0⟩]] := by
  have hbds := flowStarts_single g.module maxBytes (s.outputFlow_isGather f) hT
  have hdims : (s.outputFlow f).shimDims = none := by
    have hrank : s.memref.rank = 3 := rfl
    simp [outputFlow, pullShimDims, hrank]
  rwa [hdims] at hbds

/-- The only fire is the whole share, which is no block. -/
theorem not_places_scatter_single : ¬s.Places false (flowStarts g.module maxBytes (s.outputFlow f)) := by
  rintro ⟨rounds, iters, bd, hbds, hp⟩
  have hbds' := flowStarts_oneTile g f maxBytes hT
  rw [hbds, hT] at hbds'
  generalize i32 (s.memref.numElements * elementSizeBytes s.bitWidth : ℕ) = len at hbds'
  obtain ⟨rfl, hbd⟩ := single_fire hbds'
  have hpos := s.numCoreTiles_pos
  obtain rfl : iters = 1 := by
    rw [← hp.iterations 0 Nat.one_pos 0 hpos, hbd]
    rfl
  have hblock : len.toNat = s.blockBytes := by
    have h := (hp.fire 0 hpos 0 Nat.one_pos 0 Nat.one_pos).length_eq
    rwa [hbd, Bd.length_fire, s.length_block] at h
  -- a block is at most half of what has to be covered
  have hcount := length_of_single_fire s.nodup_share (hT ▸ hp.bijOn)
  rw [hbd, s.length_share] at hcount
  have hhalf := s.blockBytes_lt
  have hB := s.blockBytes_pos
  simp only at hcount
  omega

/-- Tile by tile, one descriptor of the whole share does as well, if its length fits. -/
theorem places_tileMajor_single_iff :
    s.Places true (flowStarts g.module maxBytes (s.outputFlow f)) ↔ 8 ≤ s.bitWidth ∧ s.bytes < 2 ^ 31 := by
  have hbds' := flowStarts_oneTile g f maxBytes hT
  have hpos : 0 < s.bytes := by
    have := s.blockBytes_lt
    have := s.blockBytes_pos
    omega
  constructor
  · rintro ⟨iters, bd, hbds, hp⟩
    rw [hbds, hT] at hbds'
    have hbd : bd 0 = ⟨0, i32 (s.memref.numElements * elementSizeBytes s.bitWidth : ℕ), [], 0, 0⟩ := by
      simpa using hbds'
    obtain rfl : iters = 1 := by
      rw [← hp.iterations 0 s.numCoreTiles_pos, hbd]
      rfl
    have h := congrArg length hp.stream
    rw [hT, range_one, flatMap_singleton, flatMap_singleton, hbd, Bd.length_fire, length_map,
      length_range] at h
    exact ((bufferLen hT).toNat_i32_eq_iff hpos).1 h
  · rintro ⟨hw, hfit⟩
    refine ⟨1, fun _ => ⟨0, i32 s.bytes, [], 0, 0⟩, ?_, fun _ _ => rfl, ?_⟩
    · rw [hbds', (bufferLen hT).exact hw, hT]
      rfl
    · rw [hT, range_one, flatMap_singleton, flatMap_singleton, Bd.fire_flat, i32_of_lt hfit,
        Int.toNat_natCast]

end

end ConvOut

/-- **Convolution output.** The lowering succeeds. It places the output, scattered or tile by tile,
if and only if an element is at least a byte and there is more than one mesh column; for a single
column the tile-major layout is right as well, if its length fits 32 bits. -/
theorem conv_output_iff (s : ConvOut) (g : ConvModule) (f : ConvOut.OutputFlow) (maxPingPongBytes : ℕ) :
    (∃ starts, lowerFlow g.module maxPingPongBytes (s.outputFlow f) = .ok starts ∧
      s.Places (decide (g.module.outputTileMajor ≠ 0)) starts) ↔
      8 ≤ s.bitWidth ∧ (1 < s.numCoreTiles ∨ (g.module.outputTileMajor ≠ 0 ∧ s.bytes < 2 ^ 31)) := by
  rw [exists_lowerFlow]
  have hpos := s.numCoreTiles_pos
  rcases lt_or_ge 1 s.numCoreTiles with hT | hT
  · rw [or_iff_left_of_imp fun _ => hT, and_iff_left hT]
    by_cases htm : g.module.outputTileMajor = 0
    · rw [decide_eq_false (not_not.2 htm)]
      exact ConvOut.places_scatter_iff g f maxPingPongBytes htm hT
    · rw [decide_eq_true htm]
      exact ConvOut.places_tileMajor_iff g f maxPingPongBytes htm hT
  · have hone : s.numCoreTiles = 1 := by omega
    rw [or_iff_right (Nat.not_lt_of_le hT)]
    by_cases htm : g.module.outputTileMajor = 0
    · rw [decide_eq_false (not_not.2 htm)]
      exact iff_of_false (ConvOut.not_places_scatter_single g f maxPingPongBytes hone) fun h => h.2.1 htm
    · rw [decide_eq_true htm, and_iff_right htm]
      exact ConvOut.places_tileMajor_single_iff g f maxPingPongBytes hone

/-- An output of 8 rows, 4 columns and `n` groups of 8 channels on two mesh rows: blocks of 2 rows
and 2 columns. -/
def smallOut (n w : ℕ) (hn : n = 1 ∨ n = 2) (hw : w = 4 ∨ w = 8) : ConvOut where
  d := ![⟨.mk 8 8 4 4 2 (some (.mk 4 4 2 2 2 none)), 1⟩, ⟨.mk 4 4 2 2 2 none, 0⟩,
    ⟨.mk (8 * n) (8 * n) 8 8 n none, 2⟩]
  row := 0
  col := 2
  iter := 1
  row_axis := rfl
  col_axis := rfl
  iter_axis := rfl
  core := .mk 4 4 2 2 2 none
  row_core := rfl
  col_core := rfl
  iter_core := rfl
  core_rounds := by decide
  core_total := rfl
  level := fun k =>
    match k with
    | 0 => rfl
    | 1 => rfl
    | 2 => rfl
  base_pos := by
    rcases hn with rfl | rfl <;> decide
  bitWidth := w
  bitWidth_dvd := dvd_word hw
  aligned := by rcases hn with rfl | rfl <;> rcases hw with rfl | rfl <;> decide +kernel
  fits := by rcases hn with rfl | rfl <;> rcases hw with rfl | rfl <;> decide +kernel

/-- A module whose input has a width-split halo, without `output_tile_major`. -/
def smallConvModule : ConvModule where
  module :=
    { fullconnectAuto := some 0, iterPolicy := none, partitionTiling := {}, kernelTiling := {},
      tensorInfo := [(0, { halo := some { slice := 1, step := 1, wRounds := 2, bufSize := 1 } })] }
  halo := by decide

/-- Two ways to go wrong: a single mesh column, whose descriptor is the whole share, and two columns of 4-bit
elements, whose length counts a byte for each element. -/
theorem conv_small_misplaced :
    (¬∃ starts, lowerFlow smallConvModule.module 0
        ((smallOut 1 8 (.inl rfl) (.inr rfl)).outputFlow { root := ⟨[8, 4, 8], 8⟩ }) = .ok starts ∧
        (smallOut 1 8 (.inl rfl) (.inr rfl)).Places false starts) ∧
      ¬∃ starts, lowerFlow smallConvModule.module 0
        ((smallOut 2 4 (.inr rfl) (.inl rfl)).outputFlow { root := ⟨[8, 4, 16], 4⟩ }) = .ok starts ∧
        (smallOut 2 4 (.inr rfl) (.inl rfl)).Places false starts := by
  rw [exists_lowerFlow, exists_lowerFlow]
  refine ⟨ConvOut.not_places_scatter_single smallConvModule _ _ rfl, fun hp => ?_⟩
  have hw := (ConvOut.places_scatter_iff smallConvModule _ _ rfl (by decide)).1 hp
  exact absurd hw (by decide)

end AieHlc.Conv
