import AieHlc.Gemm.Strip
import AieHlc.Lower.Gather

/-!
# GEMM output with sub-tiles in M

The lowering of the flow that gathers an output strip, when the tiles' rows are
sent as sub-tiles of `tile_m` rows under full connection. The step from tile to
tile comes from the pull conversion, everything else from the output descriptor.

* `gatherCtx_output`: what the passes compute for the strip.
* `flowStarts_output`: the starts, for several tiles.
* `not_places_single`: those of one tile are never right.
* `output_placed_iff`: which strips are placed right.
-/

namespace AieHlc.Gemm

open List AieHlc.Dma AieHlc.Word AieHlc.Lower

/-- A module whose pass state holds the tile sizes of `s`: full connection, no width-split halo. -/
structure StripModule (s : Strip) where
  module : Module
  fullconnect : module.isFullConnectAuto = true
  noHalo : (detectConvHalo module.tensorInfo).valid = false
  tileM : (enterPass module).tileM = s.tileM
  tileRows : (enterPass module).tileRows = s.tileRows
  tileN : (enterPass module).tileN = s.tileN
  tileCols : (enterPass module).tileCols = s.tileCols

namespace Strip

variable (s : Strip)

def memref (rows : ℕ) : MemRefType := ⟨[rows, s.outW], s.bitWidth⟩

/-- What a flow that gathers the strip may choose. -/
structure OutputFlow where
  /-- rows of the whole output -/
  rootRows : ℕ
  dataId : Option ℤ := none
  argIdx : ℤ := -1
  tiling : Option (List TilingDim) := none

def outputFlow (f : OutputFlow) : FlowTransferOp where
  shimIsSender := false
  type := "many_to_one"
  coreTiles := s.numCoreTiles
  dataId := f.dataId
  argIdx := f.argIdx
  memrefType := s.memref s.tileRows
  shimDims := pullShimDims (s.memref f.rootRows) (s.memref s.tileRows) s.numCoreTiles
  tiling := f.tiling

def Places (nOuter : Bool) (starts : List StartIo) : Prop :=
  ∃ (rounds iters : ℕ) (bd : ℕ → ℕ → Bd),
    starts.map StartIo.bds = (range rounds).map (fun r => (range s.numCoreTiles).map (bd r)) ∧
      s.Placed nOuter rounds iters bd

end Strip

variable {s : Strip}

theorem outputFlow_isGather (f : Strip.OutputFlow) : (s.outputFlow f).IsGather := ⟨rfl, rfl⟩

/-! ## Several tiles -/

theorem pullShimDims_strip (rootRows : ℕ) (hT : 1 < s.numCoreTiles) :
    pullShimDims (s.memref rootRows) (s.memref s.tileRows) s.numCoreTiles =
      some [⟨4, i32 (s.nRounds * s.nWords : ℕ)⟩, ⟨i32 s.rowBytes, i32 s.tileRows⟩,
        ⟨i32 s.tileBytes, i32 s.numCoreTiles⟩] := by
  have hpos := perWord_pos s.bitWidth_dvd
  have hcol : s.outW / s.numCoreTiles = s.tileCols := Nat.mul_div_cancel_left _ s.numCoreTiles_pos
  have hcolw : s.tileCols / (32 / s.bitWidth) = s.nRounds * s.nWords := by
    rw [s.tileCols_eq, Nat.mul_div_cancel_left _ hpos]
  have hw : s.outW / (32 / s.bitWidth) = s.numCoreTiles * (s.nRounds * s.nWords) := by
    rw [s.outW_eq, Nat.mul_div_cancel_left _ hpos]
  have hrow : s.numCoreTiles * (s.nRounds * s.nWords) * 4 = s.rowBytes :=
    by rw [Strip.rowBytes, Strip.tileBytes]; ring
  have htile : s.nRounds * s.nWords * 4 = s.tileBytes := by rw [Strip.tileBytes]; ring
  simp [pullShimDims, Strip.memref, MemRefType.rank, MemRefType.dimSize, hT, hcol, hcolw, hw, hrow, htile]

/-- The output descriptor of the strip. Where N has a single sub-tile its width is the tile's. -/
theorem buildOutputTileDescriptor_strip (g : StripModule s) (tiling : Option (List TilingDim)) :
    buildOutputTileDescriptor (enterPass g.module) (s.memref s.tileRows) s.numCoreTiles
      g.module.isNOuterPolicy
        (elementSizeBytes s.bitWidth) tiling =
      { bdDims := [(4, s.nWords), (s.rowBytes, s.tileM)]
        roundDims := [(s.rounds g.module.isNOuterPolicy, s.perRound g.module.isNOuterPolicy)]
        bdLenBytes := s.tileM * s.tileN * elementSizeBytes s.bitWidth
        totalRounds := s.rounds g.module.isNOuterPolicy
        iterStep := i32 (s.perIter g.module.isNOuterPolicy)
        iterWrap := i32 (s.iters g.module.isNOuterPolicy) } := by
  have hpos := perWord_pos s.bitWidth_dvd
  have hhalo : (detectConvHalo (enterPass g.module).tensorInfo).valid = false := g.noHalo
  have hw : s.outW / (32 / s.bitWidth) = s.numCoreTiles * (s.nRounds * s.nWords) := by
    rw [s.outW_eq, Nat.mul_div_cancel_left _ hpos]
  have hrow : s.numCoreTiles * (s.nRounds * s.nWords) * 4 = s.rowBytes :=
    by rw [Strip.rowBytes, Strip.tileBytes]; ring
  have hcol : s.outW / s.numCoreTiles = s.tileCols := Nat.mul_div_cancel_left _ s.numCoreTiles_pos
  have hN : (if 0 < s.tileN ∧ s.tileN < s.tileCols then s.tileN else s.tileCols) = s.tileN := by
    split
    · rfl
    · have := Nat.le_of_dvd s.tileCols_pos s.tileN_dvd
      have := s.tileN_pos
      omega
  have hR : (if 0 < s.tileN ∧ s.tileN < s.tileCols then s.tileCols / s.tileN else 1) = s.nRounds := by
    split
    · rfl
    · have heq : s.tileN = s.tileCols := by
        have := Nat.le_of_dvd s.tileCols_pos s.tileN_dvd
        have := s.tileN_pos
        omega
      rw [Strip.nRounds, heq, Nat.div_self s.tileCols_pos]
  have hnw : s.tileN / (32 / s.bitWidth) = s.nWords := rfl
  have hm : s.tileRows / s.tileM = s.mRounds := rfl
  unfold buildOutputTileDescriptor gemmDesc
  simp only [hhalo, g.tileM, g.tileRows, g.tileN, g.tileCols, Strip.memref, MemRefType.dimSize,
    List.getD_cons_succ,
    List.getD_cons_zero, hcol, hw, decide_eq_true_eq, hN, hR, hnw, hm, if_pos s.tileM_pos, mul_assoc s.tileM,
    hrow, mul_comm s.nWords, Bool.false_eq_true, if_false]
  cases g.module.isNOuterPolicy <;>
    simp only [Strip.rounds, Strip.iters, Strip.perRound, Strip.perIter, Bool.false_eq_true,
      if_false, if_true]

section Several

variable (g : StripModule s) (f : Strip.OutputFlow) (maxBytes : ℕ)

theorem hasDesc_output : HasDesc g.module := by
  refine Or.inl ⟨?_, ?_, g.fullconnect⟩
  · rw [g.tileM]
    exact s.tileM_pos
  · rw [g.tileM, g.tileRows]
    exact s.tileM_lt

section

variable (hT : 1 < s.numCoreTiles)

include hT

/-- The descriptor of a tile, on its way to the grid: nothing but the length can go wrong. -/
theorem gatherCtx_output : let c := gatherCtx g.module maxBytes (s.outputFlow f)
    c.perTileStrideFromDims = s.tileBytes ∧ c.oooIterStepSize = s.perIter g.module.isNOuterPolicy ∧
      c.oooIterWrap = s.iters g.module.isNOuterPolicy ∧ c.perTileDims = some s.dims ∧
      c.perRoundBytes = s.tileM * s.tileN * elementSizeBytes s.bitWidth := by
  obtain ⟨hnw, htb, hrb, htm⟩ := s.sizes_lt
  obtain ⟨-, -, -, hP, hE, hI, hds, hlen⟩ :=
    gatherCtx_desc maxBytes (outputFlow_isGather f) s.numCoreTiles_pos (hasDesc_output g)
  have hdesc : gatherDesc g.module (s.outputFlow f) = _ :=
    buildOutputTileDescriptor_strip g f.tiling
  rw [hdesc] at hP hE hI hds hlen
  refine ⟨?_, ?_, ?_, ?_, hlen⟩
  · rw [hP, if_neg (lt_irrefl _), pullTileStep_of_dims (pullShimDims_strip f.rootRows hT), i32_of_lt htb]
  · rw [hE, i32_of_lt (s.perIter_lt _)]
  · rw [hI, i32_of_lt (s.iters_lt _)]
  · have h4 : i32 (4 : ℕ) = 4 := i32_of_lt (by decide)
    rw [hds, map_cons, map_cons, map_nil, i32_of_lt hnw, i32_of_lt hrb, i32_of_lt htm, h4]
    rfl

theorem grid_output :
    Grid s.numCoreTiles (s.rounds g.module.isNOuterPolicy) (s.iters g.module.isNOuterPolicy) s.tileBytes
      (s.perRound g.module.isNOuterPolicy) (s.perIter g.module.isNOuterPolicy) s.dims fun r t =>
        gatherBd (gatherCtx g.module maxBytes (s.outputFlow f))
          (i32 (i32 r * i32 (s.perRound g.module.isNOuterPolicy))) t := by
  obtain ⟨hP, hE, hI, hds, -⟩ := gatherCtx_output g f maxBytes hT
  exact gatherBd_grid hP hI hE hds (cons_ne_nil _ _) fun r hr t ht => s.base_lt _ hr ht

theorem flowStarts_output : (flowStarts g.module maxBytes (s.outputFlow f)).map StartIo.bds =
    (range (s.rounds g.module.isNOuterPolicy)).map fun r : ℕ => (range s.numCoreTiles).map
      (gatherBd (gatherCtx g.module maxBytes (s.outputFlow f))
        (i32 (i32 r * i32 (s.perRound g.module.isNOuterPolicy)))) := by
  have hd : gatherDesc g.module (s.outputFlow f) = _ := buildOutputTileDescriptor_strip g f.tiling
  have hbds := flowStarts_desc maxBytes (outputFlow_isGather f) hT (hasDesc_output g)
    (by rw [hd]; exact s.rounds_pos _) (congrArg _ hd)
  rwa [hd] at hbds

/-- Of smaller elements the length is not that of the dimensions, not even after truncation. -/
theorem places_several_iff :
    s.Places g.module.isNOuterPolicy (flowStarts g.module maxBytes (s.outputFlow f)) ↔ 8 ≤ s.bitWidth := by
  have hbds' := flowStarts_output g f maxBytes hT
  obtain ⟨-, -, -, hds, hlen⟩ := gatherCtx_output g f maxBytes hT
  constructor
  · rintro ⟨rounds, iters, bd, hbds, hp⟩
    -- the descriptor of tile 0 in round 0
    rw [hbds] at hbds'
    obtain ⟨hrounds, hall⟩ := map_range_inj hbds'
    have hpos : 0 < rounds := by rw [hrounds]; exact s.rounds_pos _
    have hbd := (map_range_inj (hall 0 hpos)).2 0 s.numCoreTiles_pos
    have h := hp.len 0 hpos 0 s.numCoreTiles_pos
    rw [hbd] at h
    unfold gatherBd at h
    simp only [hds, hlen, Option.getD_some] at h
    refine ((s.descLen.toNat_i32_eq_iff (Nat.mul_pos (by decide) s.size_dims_pos)).1 ?_).1
    rw [h, Int.toNat_natCast]
  · intro hw
    refine ⟨_, _, _, hbds', s.placed_of_grid (grid_output g f maxBytes hT) fun r t => ?_⟩
    rw [gatherBd, hlen, s.descLen.exact hw, i32_of_lt s.len_lt]

end

end Several

/-! ## One tile -/

/-- One tile is sent to a descriptor of the whole strip, which no sub-tile fills. -/
theorem not_places_single (g : StripModule s) (f : Strip.OutputFlow) (maxBytes : ℕ) (hT : s.numCoreTiles = 1)
    (nOuter : Bool) : ¬s.Places nOuter (flowStarts g.module maxBytes (s.outputFlow f)) := by
  rintro ⟨rounds, iters, bd, hbds, hp⟩
  have hbds' := flowStarts_single g.module maxBytes (outputFlow_isGather f) hT
  have hdims : (s.outputFlow f).shimDims = none := by
    simp [Strip.outputFlow, pullShimDims, hT]
  rw [hdims, hbds, hT] at hbds'
  generalize i32 ((s.outputFlow f).memrefType.numElements *
    elementSizeBytes (s.outputFlow f).memrefType.elementTypeBitWidth : ℕ) = len at hbds'
  -- a single round, and in it a contiguous run
  obtain ⟨rfl, hbd⟩ := single_fire hbds'
  have hpos : 0 < s.numCoreTiles := s.numCoreTiles_pos
  have hiters : iters = 1 := by
    rw [← hp.iterations 0 (by decide) 0 hpos, hbd]
    rfl
  subst hiters
  have hfire : len.toNat = 4 * size s.dims := by
    have h := congrArg length (hp.fire 0 hpos 0 (by decide) 0 (by decide))
    rw [hbd, s.length_subTileAt] at h
    simpa [Bd.fire] using h
  -- the strip is longer than its first sub-tile
  have hlast := s.len_lt_bytes
  have hbij := hp.bijOn
  unfold Strip.indices at hbij
  simp only [hT, ← mem_contiguous] at hbij
  have hcount := length_of_single_fire (nodup_contiguous _) hbij
  rw [hbd, length_offsets] at hcount
  simp [size] at hcount
  omega

/-! ## Which strips are placed -/

/-- **Output placement.** The lowering succeeds, and it places the strip if and only if there is more than
one tile and an element is at least a byte. -/
theorem output_placed_iff (g : StripModule s) (f : Strip.OutputFlow) (maxPingPongBytes : ℕ) :
    (∃ starts, lowerFlow g.module maxPingPongBytes (s.outputFlow f) = .ok starts ∧
      s.Places g.module.isNOuterPolicy starts) ↔ 1 < s.numCoreTiles ∧ 8 ≤ s.bitWidth := by
  rw [exists_lowerFlow]
  have hpos := s.numCoreTiles_pos
  rcases lt_or_ge 1 s.numCoreTiles with hT | hT
  · rw [places_several_iff g f maxPingPongBytes hT, and_iff_right hT]
  · exact iff_of_false (not_places_single g f maxPingPongBytes (by omega) _) fun h => Nat.not_lt_of_le hT h.1

/-- Tiles of 4 rows and 16 columns, sent as sub-tiles of 2 rows and 8 columns. -/
def smallStrip (n w : ℕ) (hn : n = 1 ∨ n = 2) (hw : w = 4 ∨ w = 8) : Strip where
  tileM := 2
  tileRows := 4
  tileN := 8
  tileCols := 16
  numCoreTiles := n
  bitWidth := w
  tileM_dvd := by decide
  tileM_lt := by decide
  tileN_dvd := by decide
  tileCols_pos := by decide
  numCoreTiles_pos := by omega
  bitWidth_dvd := dvd_word hw
  aligned := by rcases hw with rfl | rfl <;> decide
  fits := by rcases hn with rfl | rfl <;> rcases hw with rfl | rfl <;> decide

def smallStripModule (n w : ℕ) (hn : n = 1 ∨ n = 2) (hw : w = 4 ∨ w = 8) :
    StripModule (smallStrip n w hn hw) where
  module :=
    { fullconnectAuto := some 1, iterPolicy := none,
      partitionTiling := { tileM := 2, tileRows := 4, tileN := 8, tileCols := 16, found := true },
      kernelTiling := {}, tensorInfo := [] }
  fullconnect := rfl
  noHalo := rfl
  tileM := rfl
  tileRows := rfl
  tileN := rfl
  tileCols := rfl

/-- Two ways to go wrong: a single tile of bytes, whose descriptor is the whole strip, and two tiles of 4-bit
elements, whose length counts a byte for each element. -/
theorem output_small_misplaced :
    (¬∃ starts, lowerFlow (smallStripModule 1 8 (.inl rfl) (.inr rfl)).module 0
        ((smallStrip 1 8 (.inl rfl) (.inr rfl)).outputFlow { rootRows := 8 }) = .ok starts ∧
        (smallStrip 1 8 (.inl rfl) (.inr rfl)).Places false starts) ∧
      ¬∃ starts, lowerFlow (smallStripModule 2 4 (.inr rfl) (.inl rfl)).module 0
        ((smallStrip 2 4 (.inr rfl) (.inl rfl)).outputFlow { rootRows := 8 }) = .ok starts ∧
        (smallStrip 2 4 (.inr rfl) (.inl rfl)).Places false starts := by
  rw [exists_lowerFlow, exists_lowerFlow]
  refine ⟨not_places_single _ _ _ rfl _, fun hp => ?_⟩
  have hw := (places_several_iff (smallStripModule 2 4 (.inr rfl) (.inl rfl)) _ _ (by decide)).1 hp
  exact absurd hw (by decide)

end AieHlc.Gemm
