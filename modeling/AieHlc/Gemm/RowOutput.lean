import AieHlc.Gemm.Rows
import AieHlc.Lower.Gather

/-!
# GEMM output without sub-tiles in M

The lowering of the gather of a strip on the generic path. The number of rounds
is what one core sends divided by the largest round within the ping-pong budget,
or the kernel's own count; the rows of a round are the rows of the strip divided
by that number, rounded down.

* `flowStarts_rows`: the starts are those of `RowStrip.rowBd`.
* `output_covered_iff`: which strips are covered.
-/

namespace AieHlc.Gemm

open List AieHlc.Dma AieHlc.Word AieHlc.Lower

/-- A module that has no output descriptor: no sub-tiles in M under full connection, no width-split halo. -/
structure RowModule where
  module : Module
  generic : ¬HasDesc module

namespace RowStrip

variable (s : RowStrip)

def memref (rows : ℕ) : MemRefType := ⟨[rows, s.outW], s.bitWidth⟩

/-- What a flow that gathers the strip may choose. -/
structure OutputFlow where
  /-- rows of the whole output -/
  rootRows : ℕ
  dataId : Option ℤ := none
  argIdx : ℤ := -1
  tiling : Option (List TilingDim) := none

def outputFlow (f : OutputFlow) : FlowTransferOp where
  shimIsSender := false
  type := "many_to_one"
  coreTiles := s.numCoreTiles
  dataId := f.dataId
  argIdx := f.argIdx
  memrefType := s.memref s.stripH
  shimDims := pullShimDims (s.memref f.rootRows) (s.memref s.stripH) s.numCoreTiles
  tiling := f.tiling

def Covers (starts : List StartIo) : Prop :=
  ∃ (rows iters : ℕ) (bd : ℕ → Bd),
    starts.map StartIo.bds = [(range s.numCoreTiles).map bd] ∧ s.Covered rows iters bd

/-- Rounds of a share: the kernel's if they divide it, else by the largest divisor within the budget. -/
def rounds (m : Module) (maxPingPongBytes : ℕ) : ℕ :=
  let share := s.stripH * s.tileW
  if 1 < m.kernelTiling.outRounds ∧ m.kernelTiling.outRounds ∣ share then m.kernelTiling.outRounds
  else share / Nat.findGreatest (· ∣ share) (budgetElems maxPingPongBytes (elementSizeBytes s.bitWidth) share)

theorem share_pos : 0 < s.stripH * s.tileW := Nat.mul_pos s.stripH_pos s.tileW_pos

theorem rounds_eq (m : Module) (maxBytes : ℕ) : s.rounds m maxBytes = s.stripH * s.tileW /
    pingPongSize (enterPass m) maxBytes true (s.stripH * s.tileW) (elementSizeBytes s.bitWidth) := by
  rw [pingPongSize_eq _ _ s.share_pos (elementSizeBytes_pos _),
    show (enterPass m).kernelTiling = m.kernelTiling from rfl]
  unfold rounds
  dsimp only
  split
  · rename_i h
    exact (Nat.div_div_self h.2 s.share_pos.ne').symm
  · rfl

theorem rounds_pos (m : Module) (maxBytes : ℕ) : 0 < s.rounds m maxBytes := by
  have hpos := s.share_pos
  have hdvd := pingPongSize_dvd (enterPass m) maxBytes true (s.stripH * s.tileW) (elementSizeBytes s.bitWidth)
  rw [rounds_eq]
  exact Nat.div_pos (Nat.le_of_dvd hpos hdvd) (Nat.pos_of_dvd_of_pos hdvd hpos)

theorem outputFlow_isGather (f : OutputFlow) : (s.outputFlow f).IsGather := ⟨rfl, rfl⟩

theorem pullShimDims_rows (rootRows : ℕ) :
    pullShimDims (s.memref rootRows) (s.memref s.stripH) s.numCoreTiles =
      some [⟨4, i32 s.words⟩, ⟨i32 s.rowBytes, i32 s.stripH⟩, ⟨i32 s.tileBytes, i32 s.numCoreTiles⟩] := by
  have hpos := perWord_pos s.bitWidth_dvd
  have hT := s.numCoreTiles_gt
  have hcol : s.outW / s.numCoreTiles = s.tileW := Nat.mul_div_cancel_left _ (Nat.zero_lt_of_lt hT)
  have hcolw : s.tileW / (32 / s.bitWidth) = s.words := rfl
  have hw : s.outW / (32 / s.bitWidth) = s.numCoreTiles * s.words := by
    rw [outW, s.tileW_eq, mul_left_comm, Nat.mul_div_cancel_left _ hpos]
  have hrow : s.numCoreTiles * s.words * 4 = s.rowBytes := by rw [rowBytes, tileBytes]; ring
  have htile : s.words * 4 = s.tileBytes := mul_comm _ _
  simp [pullShimDims, memref, MemRefType.rank, MemRefType.dimSize, hT, hcol, hcolw, hw, hrow, htile]

/-- **The lowering of the strip**: the descriptors of its rounds. -/
theorem flowStarts_rows (g : RowModule) (f : OutputFlow) (maxBytes : ℕ) :
    ∃ len, (flowStarts g.module maxBytes (s.outputFlow f)).map StartIo.bds =
      [(range s.numCoreTiles).map (s.rowBd (s.rounds g.module maxBytes) len)] := by
  have hT := s.numCoreTiles_gt
  have hgather := s.outputFlow_isGather f
  have hn : (paramsCtx g.module maxBytes (s.outputFlow f)).ooNumIterations = s.rounds g.module maxBytes := by
    have hshare : gatherShare g.module (s.outputFlow f) = s.stripH * s.tileW := by
      have helems : (s.outputFlow f).memrefType.numElements = s.numCoreTiles * (s.stripH * s.tileW) := by
        show 1 * s.stripH * s.outW = _
        rw [outW]
        ring
      rw [gatherShare, if_neg fun h => absurd h.1 (show 2 ≠ 3 by decide), helems]
      exact Nat.mul_div_cancel_left _ (Nat.zero_lt_of_lt hT)
    rw [(paramsCtx_gather g.module maxBytes hgather (Nat.zero_lt_of_lt hT)).2.1, shimRound, hshare, rounds_eq]
    rfl
  obtain ⟨hused, hP, hI, hE, hds⟩ :=
    gatherCtx_generic g.module maxBytes hgather g.generic (s.pullShimDims_rows f.rootRows) hn
  have hcn : (gatherCtx g.module maxBytes (s.outputFlow f)).numCoreTiles = s.numCoreTiles :=
    gatherCtx_numCoreTiles g.module maxBytes (Nat.zero_lt_of_lt hT)
  refine ⟨i32 (gatherCtx g.module maxBytes (s.outputFlow f)).perRoundBytes, ?_⟩
  rw [flowStarts_gather g.module maxBytes hgather hT, gatherRounds, hused, Bool.false_and,
    if_neg (by decide), hcn]
  refine congrArg (fun l => [l]) (map_congr_left fun t _ => ?_)
  unfold gatherBd rowBd roundRows
  rw [hP, hI, hE, hds]
  rfl

/-- What the starts of the strip cover is decided by the number of rounds. -/
theorem covers_iff (g : RowModule) (f : OutputFlow) (maxBytes : ℕ) :
    s.Covers (flowStarts g.module maxBytes (s.outputFlow f)) ↔
      s.rounds g.module maxBytes ∣ s.stripH ∧ s.Fits (s.rounds g.module maxBytes) := by
  obtain ⟨len, hbds'⟩ := s.flowStarts_rows g f maxBytes
  have hn := s.rounds_pos g.module maxBytes
  constructor
  · rintro ⟨rows, iters, bd, hbds, hc⟩
    rw [hbds] at hbds'
    have heq := (map_range_inj (List.cons.inj hbds').1).2
    exact (hc.congr heq).fits hn
  · rintro ⟨hdvd, hf⟩
    exact ⟨_, _, _, hbds', s.covered_of_fits hn hdvd hf len⟩

end RowStrip

/-- **Output cover.** The lowering succeeds, and the strip is covered if and only if the number of rounds
divides its rows and no row count, offset or step is truncated. -/
theorem output_covered_iff (s : RowStrip) (g : RowModule) (f : RowStrip.OutputFlow) (maxPingPongBytes : ℕ) :
    (∃ starts, lowerFlow g.module maxPingPongBytes (s.outputFlow f) = .ok starts ∧ s.Covers starts) ↔
      s.rounds g.module maxPingPongBytes ∣ s.stripH ∧ s.Fits (s.rounds g.module maxPingPongBytes) := by
  rw [exists_lowerFlow]
  exact s.covers_iff g f maxPingPongBytes

def threeRows : RowStrip where
  stripH := 3
  tileW := 4
  numCoreTiles := 2
  bitWidth := 8
  stripH_pos := by decide
  tileW_pos := by decide
  numCoreTiles_gt := Nat.one_lt_two
  bitWidth_dvd := by decide
  aligned := by decide

def plainModule : RowModule where
  module :=
    { fullconnectAuto := none, iterPolicy := none, partitionTiling := {}, kernelTiling := {},
      tensorInfo := [] }
  generic := by
    rintro (⟨h, -⟩ | h)
    · exact absurd h (by decide)
    · exact absurd h (by decide)

/-- With six bytes of ping-pong buffer a tile of twelve is sent in two rounds of one and a half rows. -/
theorem output_threeRows_not_covered :
    ¬∃ starts, lowerFlow plainModule.module 6 (threeRows.outputFlow { rootRows := 3 }) = .ok starts ∧
      threeRows.Covers starts := by
  rw [exists_lowerFlow, threeRows.covers_iff plainModule _ 6]
  rintro ⟨hdvd, -⟩
  have hrounds : threeRows.rounds plainModule.module 6 = 2 := by decide
  rw [hrounds] at hdvd
  exact absurd hdvd (by decide)

end AieHlc.Gemm
