import Mathlib.Data.Int.Notation
import Mathlib.Data.Nat.Notation

/-!
# What the lowering passes read

The attributes a module carries into the blueprint-to-schedule pass, the state
the pass reads at entry, and the classification of a GEMM tiling. Sizes are
64-bit attribute values, and 0 stands for an absent one.

* `BlueprintPassState`, `enterPass`: the scalars come from the partition tensors'
  tiling under `fullconnect_auto`, else from the kernel's round schedule.
* `classifyTiling`: which of M and N needs a host loop.
* `detectConvHalo`: the width-split halo of a convolution.
-/

namespace AieHlc.Lower

/-- A ranked buffer type: its shape and the bit width of its elements. -/
structure MemRefType where
  shape : List ℕ
  elementTypeBitWidth : ℕ
deriving DecidableEq, Repr

def MemRefType.rank (t : MemRefType) : ℕ := t.shape.length

def MemRefType.dimSize (t : MemRefType) (i : ℕ) : ℕ := t.shape.getD i 0

/-- Bytes of an element as the passes count them: at least one. -/
def elementSizeBytes (bitWidth : ℕ) : ℕ := if bitWidth / 8 = 0 then 1 else bitWidth / 8

theorem elementSizeBytes_pos (bitWidth : ℕ) : 0 < elementSizeBytes bitWidth := by
  unfold elementSizeBytes
  split <;> omega

/-- Spatial-halo descriptor of one tensor; 0 is an absent level. -/
structure Halo where
  slice : ℕ
  step : ℕ
  wSlice : ℕ := 0
  wStep : ℕ := 0
  wRounds : ℕ := 0
  owT : ℕ := 0
  rowPitch : ℕ := 0
  l2Slice : ℕ := 0
  l2Step : ℕ := 0
  l2Rounds : ℕ := 0
  kSlice : ℕ := 0
  kStep : ℕ := 0
  kRounds : ℕ := 0
  bufSize : ℕ := 0
deriving DecidableEq, Repr

/-- A user DMA transform: element strides and wraps, innermost first. -/
structure ShimDma where
  strides : List ℤ
  wraps : List ℤ
deriving DecidableEq, Repr

structure TensorRoutingInfo where
  halo : Option Halo := none
  shimDma : Option ShimDma := none
  layoutTransform : String := ""
deriving DecidableEq, Repr

/-- Descriptors by function argument, in ascending order of the argument index. -/
abbrev TensorRoutingInfoMap := List (ℤ × TensorRoutingInfo)

variable (map : TensorRoutingInfoMap)

def lookupTensorRoutingInfo (argIdx : ℤ) : Option TensorRoutingInfo :=
  map.lookup argIdx

def lookupHalo (argIdx : ℤ) : Option Halo :=
  (lookupTensorRoutingInfo map argIdx).bind TensorRoutingInfo.halo

/-- The halos of all tensors, in the order `sortedTensorIndices` visits them. -/
def halos : List Halo := map.filterMap fun e => e.2.halo

def spatialHaloBufSize : ℕ :=
  match (halos map).find? fun h => 0 < h.bufSize with
  | some h => h.bufSize
  | none => 0

/-- One tiling level of a dimension. -/
inductive Level where
  | mk (base total slice step rounds : ℕ) (sliceTiling : Option Level)
deriving Repr

namespace Level

def base : Level → ℕ | mk b _ _ _ _ _ => b
def total : Level → ℕ | mk _ t _ _ _ _ => t
def slice : Level → ℕ | mk _ _ s _ _ _ => s
def step : Level → ℕ | mk _ _ _ s _ _ => s
def rounds : Level → ℕ | mk _ _ _ _ r _ => r
def sliceTiling : Level → Option Level | mk _ _ _ _ _ st => st

end Level

/-- The tiling of one tensor dimension; `axis` is 0 on-core, 1 mesh row, 2 mesh column. -/
structure TilingDim where
  outer : Level
  axis : ℕ := 0
deriving Repr

structure GemmTilingScalars where
  tileM : ℕ := 0
  tileRows : ℕ := 0
  tileN : ℕ := 0
  tileCols : ℕ := 0
  effectiveK : ℕ := 0
  fullK : ℕ := 0
  kRounds : ℕ := 0
  found : Bool := false
deriving DecidableEq, Repr

/-- The kernel's round schedule, carried by the routing function. -/
structure KernelTiling where
  tileM : ℕ := 0
  tileRows : ℕ := 0
  tileN : ℕ := 0
  tileCols : ℕ := 0
  effectiveK : ℕ := 0
  fullK : ℕ := 0
  kRounds : ℕ := 0
  outRounds : ℕ := 0
deriving DecidableEq, Repr

/-- The module: its routing attributes, and what its operations carry. -/
structure Module where
  fullconnectAuto : Option ℤ
  iterPolicy : Option String
  outputTileMajor : ℤ := 0
  /-- the scalars of the partition tensors' tilings -/
  partitionTiling : GemmTilingScalars
  kernelTiling : KernelTiling
  tensorInfo : TensorRoutingInfoMap
deriving DecidableEq, Repr

namespace Module

variable (m : Module)

/-- Only `fullconnect_auto = 1` reads the partition tensors. -/
def readGemmTilingScalars : GemmTilingScalars :=
  if m.fullconnectAuto = some 1 then m.partitionTiling else {}

def isFullConnectAuto : Bool :=
  match m.fullconnectAuto with
  | some a => decide (a ≠ 0)
  | none => true

def isNOuterPolicy : Bool := decide (m.iterPolicy = some "n_outer_m_inner")

end Module

/-- Pass state, read once at entry. -/
structure BlueprintPassState where
  tileM : ℕ
  tileRows : ℕ
  tileN : ℕ
  tileCols : ℕ
  effectiveK : ℕ
  fullK : ℕ
  kRounds : ℕ
  tilingScalars : GemmTilingScalars
  tensorInfo : TensorRoutingInfoMap
  kernelTiling : KernelTiling
  outputTileMajor : Bool
deriving DecidableEq, Repr

/-- Entry of the pass: the kernel's round schedule is the fallback of the reader. -/
def enterPass (m : Module) : BlueprintPassState :=
  let ir := m.readGemmTilingScalars
  let kt := m.kernelTiling
  { tileM := if ir.found then ir.tileM else kt.tileM
    tileRows := if ir.found then ir.tileRows else kt.tileRows
    tileN := if ir.found then ir.tileN else kt.tileN
    tileCols := if ir.found then ir.tileCols else kt.tileCols
    effectiveK := if ir.found then ir.effectiveK else kt.effectiveK
    fullK := if ir.found then ir.fullK else kt.fullK
    kRounds := if ir.found then ir.kRounds else kt.kRounds
    tilingScalars := ir
    tensorInfo := m.tensorInfo
    kernelTiling := kt
    outputTileMajor := decide (m.outputTileMajor ≠ 0) }

inductive TilingMode where
  | match
  | multiple
  | invalid
deriving DecidableEq, Repr

/-- One dimension of a tiling: `tile` of `full` elements at a time. -/
def classifyDim (tile full : ℕ) : TilingMode × ℕ :=
  if tile = 0 ∨ tile = full then (.match, 1)
  else if tile < full ∧ full % tile = 0 then (.multiple, full / tile)
  else (.invalid, 0)

structure TilingClassification where
  mMode : TilingMode
  mRounds : ℕ
  nMode : TilingMode
  nRounds : ℕ
deriving DecidableEq, Repr

def classifyTiling (t : GemmTilingScalars) : TilingClassification :=
  let m := classifyDim t.tileM t.tileRows
  let n := classifyDim t.tileN t.tileCols
  { mMode := m.1, mRounds := m.2, nMode := n.1, nRounds := n.2 }

/-- The width-split halo geometry of a convolution. -/
structure ConvHaloGeom where
  valid : Bool := false
  owT : ℕ := 0
  wRounds : ℕ := 0
  l2Rounds : ℕ := 1
deriving DecidableEq, Repr

def detectConvHalo (tensorInfo : TensorRoutingInfoMap) : ConvHaloGeom :=
  if spatialHaloBufSize tensorInfo = 0 then {}
  else
    match (halos tensorInfo).find? fun h => 1 < h.wRounds with
    | some h =>
      { valid := true, wRounds := h.wRounds, owT := h.owT
        l2Rounds := if h.l2Rounds < 1 then 1 else h.l2Rounds }
    | none => {}

end AieHlc.Lower
