import AieHlc.Lower.Blueprint
import AieHlc.Lower.Desc

/-!
# Host lowering of one flow: shim descriptors

The host half of the flow-transfer conversion, step by step over the context the
source carries from one helper to the next: buffer size and halo detection, BD
length and out-of-order parameters, then the descriptors themselves. BD ids,
channels, packet ids and locks play no part in where the bytes go and are left
out.

* `emitShimTileAndParams`, `computeShimBdParams`.
* `emitShimBdOoo`: one descriptor per core tile of a gather.
* `emitShimBdNonOoo`: the single descriptor of every other flow.
* `emitShimBd`: which of the two the conversion takes.
-/

namespace AieHlc.Lower

open AieHlc.Dma AieHlc.Word

/-- What the conversion reads of a flow transfer and its two flow configurations. -/
structure FlowTransferOp where
  shimIsSender : Bool
  type : String
  /-- core tiles of the group at the other end -/
  coreTiles : ℕ
  dataId : Option ℤ
  /-- function argument the shim's view comes from, or -1 -/
  argIdx : ℤ
  memrefType : MemRefType
  shimDims : Option (List Dim)
  /-- tiling attribute of the partition slice -/
  tiling : Option (List TilingDim) := none

/-- State the helpers share. -/
structure FlowLoweringCtx where
  op : FlowTransferOp
  elementSizeBytesShim : ℕ := 1
  shimBdLen : ℕ := 0
  dataId : ℤ := -1
  isHaloSlab : Bool := false
  kAccumHaloSlab : Bool := false
  kAccumL2Rounds : ℕ := 0
  kAccumL2Step : ℕ := 0
  kAccumRowPitchElems : ℕ := 0
  l2CorePerRoundLen : ℕ := 0
  numCoreTiles : ℕ := 1
  perTileShimLen : ℕ := 0
  isManyToOne : Bool := false
  useOOO : Bool := false
  ooElementSizeBytes : ℕ := 1
  ooPerCoreElements : ℕ := 0
  ooPingPongSize : ℕ := 1
  ooNumIterations : ℕ := 0
  perRoundBytes : ℕ := 0
  shimIterStepSize : ℤ := 0
  shimIterWrap : ℤ := 0
  usedMRounds3D : Bool := false
  oooMRounds : ℕ := 1
  oooIterStepSize : ℤ := 0
  oooIterWrap : ℤ := 0
  perTileStrideFromDims : ℤ := 0
  perTileDims : Option (List Dim) := none
  outDesc : OutputTileDescriptor := {}
  /-- descriptors emitted so far, by core tile -/
  shimBds : List Bd := []

def MemRefType.numElements (t : MemRefType) : ℕ := t.shape.foldl (· * ·) 1

/-- Row width of a buffer: the product of the dimensions after the first. -/
def MemRefType.rowWidth (t : MemRefType) : ℕ :=
  if 2 ≤ t.rank then t.shape.tail.foldl (· * ·) 1
  else if t.rank = 1 then t.dimSize 0
  else 1

variable (ps : BlueprintPassState)

variable (c : FlowLoweringCtx)

def emitShimTileAndParams : FlowLoweringCtx :=
  let eb := elementSizeBytes c.op.memrefType.elementTypeBitWidth
  let c := { c with
    elementSizeBytesShim := eb
    shimBdLen := c.op.memrefType.numElements * eb
    dataId := c.op.dataId.getD (-1)
    isHaloSlab := false
    kAccumHaloSlab := false
    kAccumL2Rounds := 0
    kAccumL2Step := 0
    kAccumRowPitchElems := 0
    l2CorePerRoundLen := 0 }
  match lookupHalo ps.tensorInfo c.op.argIdx with
  | none => c
  | some halo =>
    if 1 < halo.kRounds then
      { c with
        isHaloSlab := true
        kAccumHaloSlab := true
        kAccumL2Rounds := halo.l2Rounds
        kAccumL2Step := halo.l2Step
        kAccumRowPitchElems := halo.rowPitch }
    else { c with isHaloSlab := true }

/-- Largest divisor of `n` that is at most `max`, searched downwards; 1 if there is none. -/
def largestDivisor (n : ℕ) : ℕ → ℕ
  | 0 => 1
  | cand + 1 => if n % (cand + 1) = 0 then cand + 1 else largestDivisor n cand

/-- Descriptor length of one transfer: nested halo slabs first, then K rounds of a GEMM input. -/
def shimLens : ℕ × ℕ :=
  let sub := fun (tile full : ℕ) =>
    if 0 < tile ∧ tile < full then tile * ps.effectiveK * ps.kRounds else c.shimBdLen / ps.kRounds
  let slab :=
    match if c.isHaloSlab ∧ c.op.shimIsSender then lookupHalo ps.tensorInfo c.op.argIdx else none with
    | none => (c.shimBdLen, c.l2CorePerRoundLen)
    | some h =>
      if 1 < h.l2Rounds ∧ 0 < h.l2Slice then
        if 1 < h.kRounds ∧ 0 < h.kSlice then
          (h.l2Slice * h.kSlice * h.kRounds * c.elementSizeBytesShim,
            h.l2Slice * h.kSlice * c.elementSizeBytesShim)
        else
          (h.l2Slice * c.op.memrefType.rowWidth * c.elementSizeBytesShim,
            h.l2Slice * c.op.memrefType.rowWidth * c.elementSizeBytesShim)
      else (c.shimBdLen, c.l2CorePerRoundLen)
  if ¬c.isHaloSlab ∧ 1 < ps.kRounds ∧ c.op.shimIsSender then
    (if c.dataId = 0 then sub ps.tileN ps.tileCols else sub ps.tileM ps.tileRows, slab.2)
  else slab

variable (maxPingPongBytes : ℕ)

/-- Elements per out-of-order round: a kernel slab if the rounds are given, else the largest divisor
within the ping-pong budget. -/
def pingPongSize (isManyToOne : Bool) (perCoreElements elementBytes : ℕ) : ℕ :=
  let whole := if perCoreElements = 0 then 1 else perCoreElements
  let outRounds := ps.kernelTiling.outRounds
  if isManyToOne ∧ 1 < outRounds ∧ perCoreElements % outRounds = 0 then perCoreElements / outRounds
  else if 0 < maxPingPongBytes ∧ 0 < elementBytes then
    let maxElements := maxPingPongBytes / elementBytes
    if 0 < maxElements ∧ maxElements < whole then largestDivisor perCoreElements maxElements else whole
  else whole

/-- Elements one core sends: a channel-split view already holds one core's output. -/
def perCoreElements : ℕ :=
  let numCoreTiles := if c.op.coreTiles = 0 then 1 else c.op.coreTiles
  let fullPartition := c.shimBdLen / elementSizeBytes c.op.memrefType.elementTypeBitWidth
  let ooGroup2ConvOutput := decide (c.op.memrefType.rank = 3) && (detectConvHalo ps.tensorInfo).valid
  if decide (c.op.type = "many_to_one") && !ooGroup2ConvOutput then fullPartition / numCoreTiles
    else fullPartition

/-- The context with length and out-of-order parameters. -/
def shimBdParams (c : FlowLoweringCtx) : FlowLoweringCtx :=
  let isManyToOne : Bool := decide (c.op.type = "many_to_one")
  let eb := elementSizeBytes c.op.memrefType.elementTypeBitWidth
  let perCore := perCoreElements ps c
  let pingPong := pingPongSize ps maxPingPongBytes isManyToOne perCore eb
  { c with
    numCoreTiles := if c.op.coreTiles = 0 then 1 else c.op.coreTiles
    perTileShimLen := (shimLens ps c).1
    l2CorePerRoundLen := (shimLens ps c).2
    isManyToOne := isManyToOne
    useOOO := isManyToOne
    ooElementSizeBytes := eb
    ooPerCoreElements := perCore
    ooPingPongSize := pingPong
    ooNumIterations := perCore / pingPong
    perRoundBytes := pingPong * eb
    shimIterStepSize := 0
    shimIterWrap := 0
    usedMRounds3D := false
    oooMRounds := 1
    oooIterStepSize := 0
    oooIterWrap := 0
    perTileStrideFromDims := 0
    perTileDims := none
    outDesc := {} }

def computeShimBdParams (c : FlowLoweringCtx) : Except String FlowLoweringCtx :=
  let c' := shimBdParams ps maxPingPongBytes c
  if c'.ooPerCoreElements % c'.ooPingPongSize ≠ 0 then
    .error ("OOO iteration: perCoreElements (" ++ toString c'.ooPerCoreElements ++
      ") not divisible by pingPongSize (" ++ toString c'.ooPingPongSize ++ ")")
  else .ok c'

theorem largestDivisor_dvd (n k : ℕ) : largestDivisor n k ∣ n := by
  induction k with
  | zero => exact one_dvd n
  | succ k ih =>
    unfold largestDivisor
    split
    · rename_i h
      exact Nat.dvd_of_mod_eq_zero h
    · exact ih

theorem largestDivisor_eq {n k : ℕ} (hk : 0 < k) : largestDivisor n k = Nat.findGreatest (· ∣ n) k := by
  induction k, hk using Nat.le_induction with
  | base => simp [largestDivisor]
  | succ k _ ih => simp only [largestDivisor, Nat.findGreatest_succ, ih, Nat.dvd_iff_mod_eq_zero]

/-- Elements of a buffer of `n` that a budget of `maxBytes` admits; one below an element admits all. -/
def budgetElems (maxBytes elementBytes n : ℕ) : ℕ :=
  if maxBytes / elementBytes = 0 then n else maxBytes / elementBytes

/-- The largest divisor, as long as there is no bound below the number itself. -/
theorem findGreatest_dvd_self {n k : ℕ} (hn : 0 < n) (hk : n ≤ k) : Nat.findGreatest (· ∣ n) k = n :=
  le_antisymm (Nat.le_of_dvd hn (Nat.findGreatest_spec (P := (· ∣ n)) hk dvd_rfl))
    (Nat.le_findGreatest hk dvd_rfl)

/-- **The round of a gather**: the kernel's rounds if they divide the share, else the largest
divisor within the budget. -/
theorem pingPongSize_eq (maxBytes : ℕ) {n eb : ℕ} (hn : 0 < n) (heb : 0 < eb) :
    pingPongSize ps maxBytes true n eb =
      if 1 < ps.kernelTiling.outRounds ∧ ps.kernelTiling.outRounds ∣ n then n / ps.kernelTiling.outRounds
      else Nat.findGreatest (· ∣ n) (budgetElems maxBytes eb n) := by
  have hbudget : (if 0 < maxBytes ∧ 0 < eb then
      if 0 < maxBytes / eb ∧ maxBytes / eb < n then largestDivisor n (maxBytes / eb) else n else n) =
      Nat.findGreatest (· ∣ n) (budgetElems maxBytes eb n) := by
    unfold budgetElems
    by_cases h0 : maxBytes / eb = 0
    · rw [if_pos h0, findGreatest_dvd_self hn le_rfl]
      simp [h0]
    · have hpos := Nat.pos_of_ne_zero h0
      rw [if_neg h0, if_pos ⟨Nat.pos_of_ne_zero fun h => h0 (by simp [h]), heb⟩]
      split
      · exact largestDivisor_eq hpos
      · exact (findGreatest_dvd_self hn (by omega)).symm
  unfold pingPongSize
  simp only [if_neg hn.ne', true_and, ← Nat.dvd_iff_mod_eq_zero, hbudget]

theorem pingPongSize_dvd (maxBytes : ℕ) (manyToOne : Bool) (n eb : ℕ) :
    pingPongSize ps maxBytes manyToOne n eb ∣ n := by
  have hwhole : (if n = 0 then 1 else n) ∣ n := by
    split
    · exact one_dvd n
    · exact dvd_rfl
  unfold pingPongSize
  generalize (if n = 0 then 1 else n) = whole at hwhole
  simp only
  split
  · rename_i h
    exact Nat.div_dvd_of_dvd (Nat.dvd_of_mod_eq_zero h.2.2)
  · split
    · split
      · exact largestDivisor_dvd _ _
      · exact hwhole
    · exact hwhole

/-- The round size always divides what a core sends, so the parameters are never refused. -/
theorem computeShimBdParams_eq (maxBytes : ℕ) (c : FlowLoweringCtx) :
    computeShimBdParams ps maxBytes c = .ok (shimBdParams ps maxBytes c) := by
  have hdvd : (shimBdParams ps maxBytes c).ooPingPongSize ∣ (shimBdParams ps maxBytes c).ooPerCoreElements :=
    pingPongSize_dvd _ _ _ _ _
  unfold computeShimBdParams
  rw [if_neg]
  exact fun h => h (Nat.mod_eq_zero_of_dvd hdvd)

/-- Rows each round of a gather writes, and the step from one to the next. -/
def roundRows : ℤ × ℤ :=
  let d1 := (c.op.shimDims.getD [])[1]?
  let ddrRowStride := (d1.map Dim.stride).getD 0
  let perTileD1Rows := (d1.map Dim.wrap).getD 0
  let rowsPerRound := if 1 < c.ooNumIterations then perTileD1Rows.tdiv c.ooNumIterations else perTileD1Rows
  (rowsPerRound, rowsPerRound * ddrRowStride)

variable (m : Module)

/-- Addressing of a gather by the output descriptor. -/
def descriptorGather (ps : BlueprintPassState) (c : FlowLoweringCtx) : FlowLoweringCtx :=
  let desc := buildOutputTileDescriptor ps c.op.memrefType c.numCoreTiles m.isNOuterPolicy
    c.ooElementSizeBytes
    c.op.tiling
  { c with
    outDesc := desc
    perTileDims := some (desc.bdDims.map fun d => ⟨i32 d.1, i32 d.2⟩)
    oooIterStepSize := desc.iterStep
    oooIterWrap := desc.iterWrap
    oooMRounds := desc.totalRounds
    usedMRounds3D := true
    perTileStrideFromDims := if 0 < desc.perTileStrideBytes then desc.perTileStrideBytes
      else c.perTileStrideFromDims
    perRoundBytes := desc.bdLenBytes }

/-- Addressing of a gather by the blueprint's own dimensions, a slab of rows at a time. -/
def genericGather : FlowLoweringCtx :=
  match c.op.shimDims with
  | some (d0 :: d1 :: _) => { c with perTileDims := some [d0, ⟨d1.stride, i32 (roundRows c).1⟩] }
  | _ => c

/-- Per-tile addressing of a gather. -/
def gatherParams (ps : BlueprintPassState) (c : FlowLoweringCtx) : FlowLoweringCtx :=
  let oooIterWrap := i32 c.ooNumIterations
  let c := { c with
    perTileStrideFromDims := (((c.op.shimDims.getD [])[2]?).map Dim.stride).getD
      (c.shimBdLen / c.numCoreTiles : ℕ)
    oooIterWrap := oooIterWrap
    oooIterStepSize := if 1 < oooIterWrap then i32 (roundRows c).2 else 0 }
  let convWidthSplit := (detectConvHalo ps.tensorInfo).valid && !c.op.shimIsSender
  let gemm3D := decide (0 < ps.tileM ∧ ps.tileM < ps.tileRows) && !c.op.shimIsSender && m.isFullConnectAuto
  if gemm3D || convWidthSplit then descriptorGather m ps c else genericGather c

/-- The descriptor of core tile `t` of a gather, with its base moved by `base`. -/
def gatherBd (base : ℤ) (t : ℕ) : Bd where
  offset := i32 (base + i32 (t * c.perTileStrideFromDims))
  len := i32 c.perRoundBytes
  dims := c.perTileDims.getD []
  iterStep := c.oooIterStepSize
  iterWrap := c.oooIterWrap

/-- Out-of-order gather: one descriptor per core tile. -/
def emitShimBdOoo (ps : BlueprintPassState) (c : FlowLoweringCtx) : FlowLoweringCtx :=
  let c := gatherParams m ps c
  { c with shimBds := (List.range c.numCoreTiles).map (gatherBd c 0) }

/-- Iteration of a K-accumulating halo slab. -/
def kAccumIter : ℤ × ℤ :=
  let elemsPerWord :=
    if 0 < c.op.memrefType.elementTypeBitWidth then 32 / c.op.memrefType.elementTypeBitWidth else 4
  if c.op.shimIsSender ∧ c.kAccumHaloSlab ∧ 0 < elemsPerWord ∧ 1 < c.kAccumL2Rounds ∧ 0 < c.kAccumL2Step ∧
      0 < c.kAccumRowPitchElems then
    (i32 (c.kAccumL2Step * (c.kAccumRowPitchElems / elemsPerWord) * 4 : ℕ), i32 c.kAccumL2Rounds)
  else (c.shimIterStepSize, c.shimIterWrap)

/-- Iteration of a GEMM input: over K rounds, or over the sub-tiles of the inner loop. -/
def inputIter (ps : BlueprintPassState) (c : FlowLoweringCtx) : ℤ × ℤ :=
  let elemBytes := elementSizeBytes c.op.memrefType.elementTypeBitWidth
  let kStep : ℤ × ℤ := (i32 (ps.effectiveK * elemBytes : ℕ), i32 ps.kRounds)
  let subTiles : ℕ → ℕ → ℤ × ℤ :=
    fun tile full => (i32 (tile * ps.fullK * elemBytes : ℕ), i32 (full / tile : ℕ))
  if c.dataId = 0 then
    if 0 < ps.tileN ∧ ps.tileN < ps.tileCols then
      if m.isNOuterPolicy then (0, 0) else subTiles ps.tileN ps.tileCols
    else kStep
  else if 0 < ps.tileM ∧ ps.tileM < ps.tileRows then
    if m.isNOuterPolicy then subTiles ps.tileM ps.tileRows else (0, 0)
  else kStep

/-- Every flow but a gather of several tiles: a single descriptor. -/
def emitShimBdNonOoo (ps : BlueprintPassState) (c : FlowLoweringCtx) : FlowLoweringCtx :=
  let iter :=
    if c.op.shimIsSender ∧ ¬c.isHaloSlab ∧ 0 < ps.effectiveK ∧ ps.effectiveK < ps.fullK ∧ 1 < ps.kRounds then
      inputIter m ps c
    else kAccumIter c
  let c := { c with shimIterStepSize := iter.1, shimIterWrap := iter.2 }
  { c with
    shimBds := [{ offset := 0, len := i32 c.perTileShimLen, dims := c.op.shimDims.getD [],
                  iterStep := c.shimIterStepSize, iterWrap := c.shimIterWrap }] }

def emitShimBd (ps : BlueprintPassState) (c : FlowLoweringCtx) : FlowLoweringCtx :=
  if c.useOOO ∧ 1 < c.numCoreTiles then emitShimBdOoo m ps c else emitShimBdNonOoo m ps c

end AieHlc.Lower
