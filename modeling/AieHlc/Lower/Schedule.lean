import AieHlc.Lower.Host

/-!
# Host lowering of one flow: schedule

When the shim descriptors of a flow are configured and started. A start is a
chain of descriptors and a repeat count; a host loop is the list of the starts
its iterations make, with the loop's 32-bit offset arithmetic.

* `classifyScheduleMode`: whether an input needs a host loop.
* `computeMultipleInputOffsetParams`, `emitScheduleMultipleInput`: the loop of an
  input, its base offset and repeat count.
* `emitScheduleOooOutput`: the round loop of a gather.
* `emitScheduleStraightLine`: everything else, started once.
* `lowerFlow`: the conversion of one flow, start to end.
-/

namespace AieHlc.Lower

open AieHlc.Dma AieHlc.Word

structure ScheduleMode where
  classification : TilingClassification
  needsOuterLoop : Bool
  fullConnect : Bool
  haloL2RoundsForLoop : ℕ
  haloKRoundsForLoop : ℕ
deriving DecidableEq, Repr

variable (m : Module)

variable (ps : BlueprintPassState)

variable (c : FlowLoweringCtx)

def classifyScheduleMode : ScheduleMode :=
  let cls := classifyTiling ps.tilingScalars
  let fullConnect := m.isFullConnectAuto
  let halo := if c.op.shimIsSender then lookupHalo ps.tensorInfo c.op.argIdx else none
  let l2 := (halo.map Halo.l2Rounds).getD 0
  let k := (halo.map Halo.kRounds).getD 0
  let tiled : Bool := if m.isNOuterPolicy then cls.nMode = .multiple else cls.mMode = .multiple
  let looped := tiled || decide (1 < l2 ∨ 1 < k)
  -- without full connection a halo of K bands, and every flow that has no halo rounds, is sent once
  let suppressed := !fullConnect && (c.kAccumHaloSlab || (!c.isHaloSlab && decide (l2 ≤ 1 ∧ k ≤ 1)))
  { classification := cls
    needsOuterLoop := looped && !suppressed
    fullConnect := fullConnect
    haloL2RoundsForLoop := l2
    haloKRoundsForLoop := k }

structure MultipleInputOffsetParams where
  outerRounds : ℕ
  perIterRepeat : ℤ
  subTileStride : ℕ
  /-- two-level halo offset: stride of a row chunk, stride of a column chunk, column chunks -/
  halo2D : Option (ℕ × ℕ × ℕ)
deriving DecidableEq, Repr

/-- How often an input descriptor is fired for one configuration. -/
def inputRepeat : ℤ :=
  if 1 < ps.kRounds then
    if m.isNOuterPolicy then
      if 0 < ps.tileM ∧ ps.tileM < ps.tileRows then i32 (ps.tileRows / ps.tileM : ℕ) else i32 ps.kRounds
    else
      if 0 < ps.tileN ∧ ps.tileN < ps.tileCols then i32 (ps.tileCols / ps.tileN : ℕ) else i32 ps.kRounds
  else 1

/-- Two-level offset of a halo input: width chunks, else K bands. -/
def halo2DStrides (elemBytes : ℕ) (h : Halo) : Option (ℕ × ℕ × ℕ) :=
  if 1 < h.wRounds ∧ 0 < h.rowPitch ∧ 0 < h.slice ∧ 0 < h.wSlice then
    let convC := spatialHaloBufSize ps.tensorInfo / h.slice / h.wSlice
    some (h.step * h.rowPitch * elemBytes, h.wStep * convC * elemBytes, h.wRounds)
  else if 1 < h.kRounds ∧ 0 < h.kSlice ∧ 0 < h.l2Step then
    some (h.l2Step * c.op.memrefType.rowWidth * elemBytes, h.kStep * elemBytes, h.kRounds)
  else none

variable (mode : ScheduleMode)

def computeMultipleInputOffsetParams : MultipleInputOffsetParams :=
  let rounds := if m.isNOuterPolicy then mode.classification.nRounds else mode.classification.mRounds
  let withL2 :=
    if 1 < mode.haloL2RoundsForLoop then
      if rounds ≤ 1 then mode.haloL2RoundsForLoop else rounds * mode.haloL2RoundsForLoop
    else rounds
  let outerRounds := if 1 < mode.haloKRoundsForLoop then withL2 * mode.haloKRoundsForLoop else withL2
  let elemBytes := elementSizeBytes c.op.memrefType.elementTypeBitWidth
  if c.isHaloSlab then
    let h := (lookupHalo ps.tensorInfo c.op.argIdx).getD { slice := 0, step := 0 }
    let halo2D := halo2DStrides ps c elemBytes h
    let rowStep := if h.wRounds ≤ 1 ∧ halo2D.isNone ∧ 1 < mode.haloL2RoundsForLoop ∧
      0 < h.l2Step then h.l2Step
      else h.step
    { outerRounds := outerRounds
      perIterRepeat := 1
      subTileStride := rowStep * c.op.memrefType.rowWidth * elemBytes
      halo2D := halo2D }
  else
    { outerRounds := outerRounds
      perIterRepeat := inputRepeat m ps
      subTileStride :=
        if ¬m.isNOuterPolicy ∧ c.dataId = 1 then ps.tileM * ps.fullK * elemBytes
        else if m.isNOuterPolicy ∧ c.dataId = 0 then ps.tileN * ps.fullK * elemBytes
        else 0
      halo2D := none }

/-- Descriptors configured together, and the repeat count they are started with. -/
structure StartIo where
  bds : List Bd
  repeatCount : ℤ
deriving DecidableEq, Repr

/-- Base offset of iteration `iv` of an input's host loop. -/
def inputLoopOffset (p : MultipleInputOffsetParams) (iv : ℤ) : ℤ :=
  match p.halo2D with
  | some (hStride, wStride, wRounds) =>
    i32 (i32 (iv.tdiv (i32 wRounds) * i32 hStride) + i32 (iv.tmod (i32 wRounds) * i32 wStride))
  | none => i32 (iv * i32 p.subTileStride)

/-- Input flow with a host loop: the descriptor is configured anew in every iteration. -/
def emitScheduleMultipleInput : List StartIo :=
  let p := computeMultipleInputOffsetParams m ps c mode
  (List.range p.outerRounds).map fun iv : ℕ =>
    { bds := c.shimBds.map fun bd => { bd with offset := inputLoopOffset p (i32 iv) }
      repeatCount := p.perIterRepeat }

/-- Offset terms of a host round, outermost dimension first. -/
def roundOffs (iv : ℤ) : Bool → List (ℕ × ℕ) → List ℤ
  | _, [] => []
  | outermost, (wrap, stride) :: rest =>
    let innerProd : ℕ := (rest.map Prod.fst).foldl (· * ·) 1
    let q := if 1 < innerProd then iv.tdiv (i32 innerProd) else iv
    let comp := if outermost then q else q.tmod (i32 wrap)
    i32 (comp * i32 stride) :: roundOffs iv false rest

def roundBaseOffset (roundDims : List (ℕ × ℕ)) (iv : ℤ) : ℤ :=
  match roundOffs iv true roundDims with
  | [] => 0
  | o :: os => os.foldl (fun a b => i32 (a + b)) o

/-- Gather with host rounds: all tiles' descriptors are configured anew in every round. -/
def emitScheduleOooOutput : List StartIo :=
  (List.range c.oooMRounds).map fun iv : ℕ =>
    { bds := (List.range c.numCoreTiles).map (gatherBd c (roundBaseOffset c.outDesc.roundDims (i32 iv)))
      repeatCount := i32 (c.numCoreTiles * c.oooIterWrap) }

def straightLineRepeat : ℤ :=
  if !mode.fullConnect && c.op.shimIsSender && !c.isHaloSlab && !c.kAccumHaloSlab then 1
  else if c.kAccumHaloSlab then (if 1 < c.kAccumL2Rounds then i32 c.kAccumL2Rounds else 1)
  else if c.isHaloSlab then 1
  else if c.useOOO then i32 (c.numCoreTiles * c.ooNumIterations : ℕ)
  else if c.op.shimIsSender then inputRepeat m ps
  else 1

def emitScheduleStraightLine : List StartIo :=
  [{ bds := c.shimBds, repeatCount := straightLineRepeat m ps c mode }]

/-- The starts of a flow whose descriptors have been emitted. -/
def emitSchedule : List StartIo :=
  let mode := classifyScheduleMode m ps c
  if mode.needsOuterLoop && c.op.shimIsSender then emitScheduleMultipleInput m ps c mode
  else if c.useOOO && c.usedMRounds3D && decide (1 < c.oooMRounds) then emitScheduleOooOutput c
  else emitScheduleStraightLine m ps c mode

variable (maxPingPongBytes : ℕ)

variable (op : FlowTransferOp)

/-- The context of a flow once its shim descriptors are emitted. -/
def lowerShim : Except String FlowLoweringCtx :=
  let ps := enterPass m
  match computeShimBdParams ps maxPingPongBytes (emitShimTileAndParams ps { op := op }) with
  | .error e => .error e
  | .ok c => .ok (emitShimBd m ps c)

/-- The conversion of one flow: what the shim's DMA is started with, in order. -/
def lowerFlow : Except String (List StartIo) :=
  match lowerShim m maxPingPongBytes op with
  | .error e => .error e
  | .ok c => .ok (emitSchedule m (enterPass m) c)

/-- The context `lowerShim` ends with. -/
def shimCtx : FlowLoweringCtx :=
  emitShimBd m (enterPass m)
    (shimBdParams (enterPass m) maxPingPongBytes (emitShimTileAndParams (enterPass m) { op := op }))

theorem lowerShim_eq : lowerShim m maxPingPongBytes op = .ok (shimCtx m maxPingPongBytes op) := by
  unfold lowerShim
  simp only [computeShimBdParams_eq]
  rfl

/-- What a flow is started with. -/
def flowStarts : List StartIo := emitSchedule m (enterPass m) (shimCtx m maxPingPongBytes op)

theorem lowerFlow_eq : lowerFlow m maxPingPongBytes op = .ok (flowStarts m maxPingPongBytes op) := by
  unfold lowerFlow
  rw [lowerShim_eq]
  rfl

/-- The lowering of a flow never fails. -/
theorem exists_lowerFlow {P : List StartIo → Prop} :
    (∃ starts, lowerFlow m maxPingPongBytes op = .ok starts ∧ P starts) ↔
    P (flowStarts m maxPingPongBytes op) := by
  simp [lowerFlow_eq]

end AieHlc.Lower
