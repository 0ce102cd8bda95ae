import AieHlc.Autotile.Spec
import AieHlc.Front.Search

/-!
# The derived tiling of a launch

From the sizes of the problem, the mesh and the ports of a kernel: the tile of a core, the rounds it
is worked in, and for each port the buffer and the rounds of its transfer.

* `Launch`: what the derivation starts from.
* `gemmParams`: tile and rounds of a GEMM; `haloRounds`, `fullK`, `pinN` replace them for a
  spatial-halo convolution.
* `portParams`: buffer and rounds of a port.
* `derive`: the whole derivation, which dies on a division by zero and on a convolution that
  contradicts the analysis of its kernel.
-/

namespace AieHlc.Front

structure Launch where
  macroDimM : ℕ
  macroDimN : ℕ
  macroDimK : ℕ
  localMeshRows : ℕ
  localMeshCols : ℕ
  /-- the mesh of the first launch -/
  tilingMeshRows : ℕ
  tilingMeshCols : ℕ
  usableMem : ℕ
  parsedTensors : List ParsedTensorInfo
  /-- what the convolution tiler derived for this kernel -/
  analysis : Option Autotile.Derived := none

structure PortParams where
  numRounds : ℕ := 0
  bufferSize : ℕ := 0
  spatialRounds : ℕ := 1
deriving DecidableEq, Repr

structure DerivedTilingParams where
  tileRows : ℕ := 0
  tileCols : ℕ := 0
  kDim : ℕ := 0
  tileM : ℕ := 0
  tileN : ℕ := 0
  effectiveK : ℕ := 0
  spatialMRounds : ℕ := 1
  spatialNRounds : ℕ := 1
  kRounds : ℕ := 1
  autoTiled : Bool := false
  convOW : ℕ := 0
  convWRounds : ℕ := 0
  convL2Rounds : ℕ := 0
  convHaloBufSize : ℕ := 0
  portParams : List PortParams := []
  valid : Bool := false
deriving DecidableEq, Repr

namespace DerivedTilingParams

/-- The tile of a core: the locals `tileM_eff`, `tileN_eff`, `tileK_eff` are kept equal to these fields. -/
def tile (d : DerivedTilingParams) : Tile := ⟨d.tileM, d.tileN, d.effectiveK⟩

end DerivedTilingParams

namespace Launch

variable (l : Launch)

def effectiveMeshRows : ℕ := if 0 < l.localMeshRows then l.localMeshRows else l.tilingMeshRows

def effectiveMeshCols : ℕ := if 0 < l.localMeshCols then l.localMeshCols else l.tilingMeshCols

def tileRows : ℕ := l.macroDimM / l.effectiveMeshRows

def tileCols : ℕ := l.macroDimN / l.effectiveMeshCols

def hints : Hints := collectHints l.parsedTensors

/-- Some dimension has an explicit tile. -/
abbrev Explicit : Prop := 0 < l.hints.tileM ∨ 0 < l.hints.tileN ∨ 0 < l.hints.tileK

/-- The tile before any search: the hints, else everything. -/
def hintedTile : Tile where
  m := if 0 < l.hints.tileM then l.hints.tileM else l.tileRows
  n := if 0 < l.hints.tileN then l.hints.tileN else l.tileCols
  k := if 0 < l.hints.tileK then l.hints.tileK else l.macroDimK

/-- Auto-tiling: no hint, and the working set is over the memory. -/
abbrev AutoTiled : Prop :=
  ¬l.Explicit ∧ l.usableMem < computeWorkingSet l.hints.elementBytes l.hintedTile

def gemmTile : Tile :=
  if l.AutoTiled then autoTile l.usableMem l.hints.elementBytes l.tileRows l.tileCols l.macroDimK
  else l.hintedTile

end Launch

/-- Rounds along a dimension of a core: from the groups over the whole dimension, else from the
extent of a core. -/
def perCoreSpatialRounds (globalGroups meshFactor tileEff perCoreExtent : ℕ) : ℕ :=
  if 0 < globalGroups then
    if 0 < meshFactor ∧ globalGroups % meshFactor = 0 then globalGroups / meshFactor else globalGroups
  else if 0 < tileEff ∧ tileEff < perCoreExtent then perCoreExtent / tileEff else 1

/-- Rounds along K, which no mesh divides. -/
def kRounds (groups tileEff dimK : ℕ) : ℕ :=
  if 0 < groups then groups else if 0 < tileEff ∧ tileEff < dimK then dimK / tileEff else 1

namespace Launch

variable (l : Launch)

def gemmParams : DerivedTilingParams where
  tileRows := l.tileRows
  tileCols := l.tileCols
  kDim := l.macroDimK
  tileM := l.gemmTile.m
  tileN := l.gemmTile.n
  effectiveK := l.gemmTile.k
  autoTiled := l.AutoTiled
  spatialMRounds := perCoreSpatialRounds l.hints.groupsM l.effectiveMeshRows l.gemmTile.m l.tileRows
  spatialNRounds := perCoreSpatialRounds l.hints.groupsN l.effectiveMeshCols l.gemmTile.n l.tileCols
  kRounds := kRounds l.hints.groupsK l.gemmTile.k l.macroDimK

/-! ## Spatial-halo convolutions -/

/-- The addressing of the first port in spatial-halo mode. -/
def halo : Option ShimDma :=
  (l.parsedTensors.find? fun pt => pt.shimDma.mode = .spatialHalo).map ParsedTensorInfo.shimDma

/-- Output rows and columns of a round, from the output port's own dimensions. -/
def convOut : ℕ × ℕ :=
  match l.parsedTensors.find? fun pt => !pt.isInput && pt.perPort2D && decide (0 < pt.tdD1.size ∧
    0 < pt.tdD2.size) with
  | some pt => (if 0 < pt.tdD1.l2Size then pt.tdD1.l2Size else pt.tdD1.size, pt.tdD2.size)
  | none => (0, 0)

end Launch

/-- Width rounds times row rounds of the halo. -/
def ShimDma.spatialMRounds (sd : ShimDma) : ℕ :=
  (if 0 < sd.wRounds then sd.wRounds else 1) * (if 0 < sd.l2Rounds then sd.l2Rounds else 1)

namespace DerivedTilingParams

def liftConv (sd : ShimDma) (d : DerivedTilingParams) : DerivedTilingParams :=
  { d with convOW := sd.ow, convWRounds := sd.wRounds, convL2Rounds := sd.l2Rounds }

/-- The rounds along M from the halo, and whether they contradict the tile rows or the output's tile. -/
def haloRounds (sd : ShimDma) (out : ℕ × ℕ) (d : DerivedTilingParams) : DerivedTilingParams × Bool :=
  if 0 < d.tileRows then
    if d.tileRows % sd.spatialMRounds ≠ 0 then (d, true)
    else
      let flatTileM := d.tileRows / sd.spatialMRounds
      ({ d with tileM := flatTileM, spatialMRounds := sd.spatialMRounds },
        decide ((0 < out.1 ∧ 0 < out.2) ∧ out.1 * out.2 ≠ flatTileM))
  else (d, false)

/-- The kernel takes all of K in one pass. -/
def fullK (dimK : ℕ) (d : DerivedTilingParams) : DerivedTilingParams :=
  if 0 < dimK ∧ (d.effectiveK ≠ dimK ∨ d.kRounds ≠ 1) then { d with effectiveK := dimK, kRounds := 1 } else d

/-- The output channels of a core are not divided any further. -/
def pinN (d : DerivedTilingParams) : DerivedTilingParams :=
  if 0 < d.tileCols then { d with tileN := d.tileCols, spatialNRounds := 1 } else d

end DerivedTilingParams

/-- The parameters but for the ports, and whether the halo contradicts them. -/
def Launch.tileParams (l : Launch) : DerivedTilingParams × Bool :=
  match l.halo with
  | none => (l.gemmParams, false)
  | some sd =>
    let r := (l.gemmParams.liftConv sd).haloRounds sd l.convOut
    ((r.1.fullK l.macroDimK).pinN, r.2)

/-! ## Ports -/

/-- Whole lines within the buffer, at least one. -/
def splitLines (lines line maxBuf : ℕ) : PortParams :=
  if lines * line ≤ maxBuf then { numRounds := 1, bufferSize := lines * line }
  else
    let perRound := if maxBuf / line = 0 then 1 else maxBuf / line
    { numRounds := (lines + perRound - 1) / perRound, bufferSize := perRound * line }

/-- Full buffers, the last one as well. -/
def splitBuffers (data maxBuf : ℕ) : PortParams :=
  if data ≤ maxBuf then { numRounds := 1, bufferSize := data }
  else { numRounds := (data + maxBuf - 1) / maxBuf, bufferSize := maxBuf }

/-- `while (rows > 1 && total % rows != 0) rows--`. -/
def snapDown (total : ℕ) : ℕ → ℕ
  | 0 => 0
  | rows + 1 => if 0 < rows ∧ total % (rows + 1) ≠ 0 then snapDown total rows else rows + 1

/-- The band of a convolution's output in whole image rows, as many as fit the buffer and divide the band. -/
def splitBand (m n outW maxBuf : ℕ) : PortParams :=
  let maxRows := if 0 < n then maxBuf / n else 0
  let totalImgRows := m / outW
  let imgRows := if maxRows / outW = 0 then 1 else maxRows / outW
  let imgRows := if totalImgRows < imgRows ∧ 0 < totalImgRows then totalImgRows else imgRows
  let imgRows := if 0 < totalImgRows then snapDown totalImgRows imgRows else imgRows
  let rowsPerRound := if imgRows * outW = 0 then outW else imgRows * outW
  { numRounds := (m + rowsPerRound - 1) / rowsPerRound, bufferSize := rowsPerRound * n }

namespace ParsedTensorInfo

variable (pt : ParsedTensorInfo)

def maxBuf : ℕ := if 0 < pt.maxBufferBytes then pt.maxBufferBytes else 4096

/-- An input in spatial-halo mode with its slab. -/
abbrev IsSlab : Prop :=
  pt.isInput ∧ pt.shimDma.mode = .spatialHalo ∧ 0 < pt.shimDma.haloSlice ∧ 0 < pt.shimDma.rawWc

def slabRows : ℕ :=
  if 1 < pt.shimDma.l2Rounds ∧ 0 < pt.shimDma.l2Slice then pt.shimDma.l2Slice else pt.shimDma.haloSlice

def slab : ℕ := pt.slabRows * pt.shimDma.rawWc

def totalElements : ℕ := pt.shape.prod

/-- The rows of A, and the columns of B, broadcast over the mesh. -/
abbrev IsA : Prop := pt.pattern = .broadcast ∧ pt.distribution = .row

abbrev IsB : Prop := pt.pattern = .broadcast ∧ pt.distribution = .col

end ParsedTensorInfo

namespace Launch

variable (l : Launch)

variable (d : DerivedTilingParams) (pt : ParsedTensorInfo)

/-- Buffer and rounds of an input; `none` where the mesh of the first launch is empty and divides by zero. -/
def inputParams : Option PortParams :=
  if pt.IsSlab then some { numRounds := 1, bufferSize := pt.slab }
  else if pt.policyResolved then
    if pt.IsA then some (splitLines d.tileM d.effectiveK pt.maxBuf)
    else if pt.IsB then some (splitLines d.tileN d.effectiveK pt.maxBuf)
    else if l.tilingMeshRows * l.tilingMeshCols = 0 then none
    else some (splitBuffers (pt.totalElements / (l.tilingMeshRows * l.tilingMeshCols)) pt.maxBuf)
  else some (splitBuffers (pt.shape.getD 0 0 * pt.shape.getD 1 0 / l.effectiveMeshRows) pt.maxBuf)

def outputParams : PortParams :=
  if d.tileM * d.tileN ≤ pt.maxBuf then { numRounds := 1, bufferSize := d.tileM * d.tileN }
  else if 0 < d.convOW then splitBand d.tileM d.tileN d.convOW pt.maxBuf
  else splitBuffers (d.tileM * d.tileN) pt.maxBuf

/-- Sub-tiles of a port: along M for a row input, along N for a column input, both for an output. -/
def portSpatialRounds : ℕ :=
  match pt.isInput, pt.distribution with
  | true, .row => d.spatialMRounds
  | true, .col => d.spatialNRounds
  | true, .grid => 1
  | false, _ => d.spatialMRounds * d.spatialNRounds

def portParams : Option PortParams :=
  (if pt.isInput then l.inputParams d pt else some (outputParams d pt)).map fun pp =>
    { pp with spatialRounds := portSpatialRounds d pt }

def haloBufSize : ℕ := l.parsedTensors.foldl (fun size pt => if pt.IsSlab then pt.slab else size) 0

/-- Rounds and block bytes against those of the kernel's analysis, where there is one. -/
def checkConvTilingAgainstAnalysis : Bool :=
  match l.analysis with
  | none => true
  | some a =>
    let bytes : ℤ := l.hints.elementBytes
    decide ((d.spatialMRounds * d.spatialNRounds : ℤ) = a.rounds) &&
    decide ((d.tileM * d.tileN : ℤ) * bytes = a.ofmRoundBytes) &&
    decide ((d.convHaloBufSize : ℤ) * bytes = a.ifmRoundBytes) &&
    decide ((d.effectiveK * d.tileN : ℤ) * bytes = a.wgtBytes)

/-- A launch with sizes, a mesh and tensors. -/
abbrev Complete : Prop :=
  0 < l.macroDimM ∧ 0 < l.macroDimN ∧ 0 < l.macroDimK ∧ 0 < l.effectiveMeshRows ∧ 0 < l.effectiveMeshCols ∧
    l.parsedTensors ≠ []

/-- The end of the derivation: a convolution against its analysis stops the compiler, a halo that
contradicts the tile leaves the parameters invalid. -/
def finish (error : Bool) (d : DerivedTilingParams) : Option DerivedTilingParams :=
  if l.halo.isSome && !l.checkConvTilingAgainstAnalysis d then none else some { d with valid := !error }

/-- The derivation. `none`: the compiler has died. -/
def derive : Option DerivedTilingParams :=
  if l.Complete then do
    let ports ← l.parsedTensors.mapM (l.portParams l.tileParams.1)
    l.finish l.tileParams.2 { l.tileParams.1 with portParams := ports, convHaloBufSize := l.haloBufSize }
  else some {}

end Launch

end AieHlc.Front
