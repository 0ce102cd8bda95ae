import Mathlib.Data.Int.Notation
import Mathlib.Data.Nat.Notation

/-!
# What the conv auto-tiling model reads and returns

The declarative description of a spatial-halo convolution (the operator, its
mapping to mesh and time, the facts of the target, the tuner's overrides) and the
record derived from it. Sizes are `int`s of the source, here integers; the cost
features are its `double`s.

* `Conv2dSpec`, `MappingSpec`, `Target`, `Overrides`: the inputs, with their defaults.
* `Derived`: geometry, ports, features and kernel constants.
-/

namespace AieHlc.Autotile

/-- The axes a mapping may name. -/
inductive Axis
  | none | OH | OW | OC | IC
deriving DecidableEq, Repr

def axisName : Axis → String
  | .OH => "OH"
  | .OW => "OW"
  | .OC => "OC"
  | .IC => "IC"
  | .none => "None"

structure Conv2dSpec where
  h : ℤ := 0
  w : ℤ := 0
  c : ℤ := 0
  k : ℤ := 0
  kh : ℤ := 0
  kw : ℤ := 0
  stride : ℤ := 1
  pad : ℤ := 0
  dilation : ℤ := 1
  /-- channel layout stride, 0 for the target's rule -/
  cAlign : ℤ := 0
deriving DecidableEq, Repr

/-- A split of an axis: mesh parts in space, tile size in time. -/
structure AxisSplit where
  axis : Axis := .none
  factor : ℤ := 0
deriving DecidableEq, Repr

structure Hints where
  pad : ℤ := 0
  im2col : ℤ := 1
  ppDepth : ℤ := 2
  l1Budget : ℤ := 4096
deriving DecidableEq, Repr

structure MappingSpec where
  spaceRows : AxisSplit := {}
  spaceCols : AxisSplit := {}
  /-- empty for autotune -/
  time : List AxisSplit := []
  hints : Hints := {}
deriving DecidableEq, Repr

structure Target where
  dataMemBudget : ℤ := 49152
  bufferRegion : ℤ := 32768
  bufferReserve : ℤ := 3072
  channelAlign : ℤ := 4
  elemBytes : ℤ := 1
  requireWidthSplit : Bool := true
  nonHaloPortsFitL1Budget : Bool := true
  stackBudget : ℤ := 32768
  stackHeadroom : ℤ := 1024
  kernelStackFixed : ℤ := 320
  macsPerCycle : Float := 21.0 / 68.0
  copyCyclesPerByte : Float := 7.0
  dmaBytesPerCycle : Float := 2.3
  roundOverheadCycles : Float := 600.0
  clockMhz : Float := 998.0

structure Overrides where
  timeOh : ℤ := 0
  timeOw : ℤ := 0
  ppDepth : ℤ := 0
  cAlign : ℤ := 0
  l1Budget : ℤ := 0
deriving DecidableEq, Repr

/-- One dimension of a port's tiling; the second level is absent at 0. -/
structure TileDimOut where
  fullsize : ℤ := 0
  tileRound : ℤ := 0
  tileSize : ℤ := 0
  stride : ℤ := 0
  padsize : ℤ := 0
  l2Size : ℤ := 0
  l2Stride : ℤ := 0
  l2Rounds : ℤ := 0
  hasStride : Bool := true
  used : Bool := false
deriving DecidableEq, Repr

structure PortSpace where
  role : String := ""
  act : String := ""
  wgt : String := ""
  layout : String := ""
  mergeOrder : String := ""
  group1Dim : ℤ := -1
  group2Dim : ℤ := -1
  pad : ℤ := 0
  im2col : ℤ := 1
  ppDepth : ℤ := 2
  l1Budget : ℤ := 4096
  d1 : TileDimOut := {}
  d2 : TileDimOut := {}
  d3 : TileDimOut := {}
  d4 : TileDimOut := {}
deriving DecidableEq, Repr

/-- Everything the derivation returns. -/
structure Derived where
  ok : Bool := false
  errors : List String := []
  notes : List String := []
  oh : ℤ := 0
  ow : ℤ := 0
  cAlign : ℤ := 0
  hPad : ℤ := 0
  wPad : ℤ := 0
  kRed : ℤ := 0
  meshRows : ℤ := 0
  meshCols : ℤ := 0
  /-- output rows and channels of a core -/
  ohMesh : ℤ := 0
  ocMesh : ℤ := 0
  /-- the on-core time tile -/
  ohT : ℤ := 0
  owT : ℤ := 0
  /-- input slab of a round -/
  tileH : ℤ := 0
  tileW : ℤ := 0
  tileStepH : ℤ := 0
  tileStepW : ℤ := 0
  /-- input rows of a mesh row -/
  meshSliceH : ℤ := 0
  meshStepH : ℤ := 0
  hRounds : ℤ := 0
  wRounds : ℤ := 0
  rounds : ℤ := 0
  timeAutotuned : Bool := false
  ifm : PortSpace := {}
  weights : PortSpace := {}
  ofm : PortSpace := {}
  ifmRoundBytes : ℤ := 0
  wgtBytes : ℤ := 0
  ofmRoundBytes : ℤ := 0
  l1Bytes : ℤ := 0
  stackBytes : ℤ := 0
  dmaBytes : ℤ := 0
  macs : ℤ := 0
  haloFactor : Float := 0
  estCycles : Float := 0
  estMs : Float := 0
  kernelDefines : List (String × ℤ) := []

end AieHlc.Autotile
