import Mathlib.Data.Fin.VecNotation
import AieHlc.Lower.State
import AieHlc.Word.Int32

/-!
# The output tile descriptor

How the bytes one core sends are placed in the output buffer: the dimensions of
one descriptor fire, the iteration the descriptor folds in, the host rounds that
move its base, and the step from tile to tile.

* `convDesc`: rank-3 convolution output, from a 3-dimensional tiling in any
  dimension order; `tileMajor` lays each core's rounds out back to back instead.
* `convFallbackDesc`, `haloDesc`: convolution outputs without such a tiling.
* `gemmDesc`: GEMM output with sub-tiles in M, and in N where `tile_n < tile_cols`.
-/

namespace AieHlc.Lower

open AieHlc.Word

structure OutputTileDescriptor where
  /-- innermost first: stride in bytes, wrap -/
  bdDims : List (ℕ × ℕ) := []
  /-- outermost first: wrap, stride in bytes -/
  roundDims : List (ℕ × ℕ) := []
  perTileStrideBytes : ℤ := 0
  bdLenBytes : ℕ := 0
  totalRounds : ℕ := 1
  iterStep : ℤ := 0
  iterWrap : ℤ := 1
deriving DecidableEq, Repr

namespace TilingDim

variable (d : TilingDim)

def extent : ℕ := d.outer.base

/-- Elements of one fire in this dimension: the on-core slice where there is one. -/
def blk : ℕ :=
  match d.outer.sliceTiling with
  | some st => st.slice
  | none => d.outer.slice

def rounds : ℕ :=
  match d.outer.sliceTiling with
  | some st => st.rounds
  | none => d.outer.rounds

end TilingDim

instance neZero_three : NeZero 3 := ⟨by decide⟩

/-- Row-major stride, in elements, of each declared dimension. -/
def rmStride (d : Fin 3 → TilingDim) : Fin 3 → ℕ :=
  ![1 * (d 2).extent * (d 1).extent, 1 * (d 2).extent, 1]

/-- Roles of the dimensions. -/
structure DimRoles where
  rowDim : Fin 3
  colDim : Fin 3
  iterDim : Fin 3
deriving DecidableEq, Repr

/-- The last dimension of each axis, or the positional fallback if an axis is missing. -/
def dimRoles (d : Fin 3 → TilingDim) : DimRoles :=
  let scan := fun (acc : Option (Fin 3) × Option (Fin 3) × Option (Fin 3)) (k : Fin 3) =>
    if (d k).axis = 1 then (some k, acc.2.1, acc.2.2)
    else if (d k).axis = 2 then (acc.1, some k, acc.2.2)
    else (acc.1, acc.2.1, some k)
  match [0, 1, 2].foldl scan (none, none, none) with
  | (some row, some col, some iter) => ⟨row, col, iter⟩
  | _ => { rowDim := 0, iterDim := 1, colDim := 2 }

/-- Each core's rounds back to back: one fire is a contiguous run, the rounds are one iteration. -/
def tileMajor (rowRounds : ℕ) (desc : OutputTileDescriptor) : OutputTileDescriptor :=
  let roundBytes := desc.bdLenBytes
  let outRounds : ℤ := rowRounds * desc.iterWrap
  { bdDims := if roundBytes % 64 = 0 then [(4, 64 / 4), (64, roundBytes / 64)] else [(4, roundBytes / 4)]
    roundDims := [(1, 0)]
    perTileStrideBytes := outRounds * roundBytes
    bdLenBytes := desc.bdLenBytes
    totalRounds := 1
    iterStep := i32 roundBytes
    iterWrap := i32 outRounds }

/-- Rank-3 convolution output from a 3-dimensional tiling: mesh rows are host rounds, the on-core
dimension is the iteration, mesh columns are the tiles. -/
def convDesc (outputTileMajor : Bool) (bitWidth ooElementSizeBytes : ℕ) (d : Fin 3 → TilingDim) :
    OutputTileDescriptor :=
  let elemsPerWord := 32 / bitWidth
  let elemBytes := elementSizeBytes bitWidth
  let r := dimRoles d
  let rm := rmStride d
  let desc : OutputTileDescriptor :=
    { bdLenBytes := 1 * (d 0).blk * (d 1).blk * (d 2).blk * ooElementSizeBytes
      bdDims := [(4, (d 2).blk / elemsPerWord), (rm 1 * elemBytes, (d 1).blk), (rm 0 * elemBytes, (d 0).blk)]
      iterStep := i32 ((d r.iterDim).blk * rm r.iterDim * elemBytes : ℕ)
      iterWrap := i32 (d r.iterDim).outer.rounds
      totalRounds := (d r.rowDim).rounds
      roundDims := [((d r.rowDim).rounds, (d r.rowDim).blk * rm r.rowDim * elemBytes)]
      perTileStrideBytes := ((d r.colDim).blk * rm r.colDim * elemBytes : ℕ) }
  if outputTileMajor then tileMajor (d r.rowDim).rounds desc else desc

variable (ps : BlueprintPassState)

/-- Rank-3 convolution output without a tiling attribute. -/
def convFallbackDesc (halo : ConvHaloGeom) (t : MemRefType) (ooElementSizeBytes : ℕ) : OutputTileDescriptor :=
  let elemsPerWord := 32 / t.elementTypeBitWidth
  let elemBytes := elementSizeBytes t.elementTypeBitWidth
  let owT := halo.owT
  let wRounds := halo.wRounds
  let hChunks := halo.l2Rounds
  let outputW := t.dimSize 1
  let cPerCore := t.dimSize 2
  let perCoreElems := t.shape.foldl (· * ·) 1
  let outRounds := if 0 < ps.kernelTiling.outRounds then ps.kernelTiling.outRounds else wRounds * hChunks
  let slabElems := if 0 < outRounds then perCoreElems / outRounds else perCoreElems
  let colElems := owT * cPerCore
  let oh := if 0 < colElems then slabElems / colElems else 1
  let ohPerRow := if oh = 0 then 1 else oh
  let outputH := ohPerRow * hChunks
  { bdLenBytes := ohPerRow * owT * cPerCore * ooElementSizeBytes
    bdDims := [(4, owT / elemsPerWord), (outputW * elemBytes, ohPerRow),
      (outputH * outputW * elemBytes, cPerCore)]
    iterStep := i32 (owT * elemBytes : ℕ)
    iterWrap := i32 wRounds
    totalRounds := hChunks
    roundDims := [(hChunks, ohPerRow * outputW * elemBytes)]
    perTileStrideBytes := (cPerCore * outputH * outputW * elemBytes : ℕ)
    : OutputTileDescriptor }

/-- Width-split convolution output of another rank: the row width is split over the tiles. -/
def haloDesc (halo : ConvHaloGeom) (t : MemRefType) (numCoreTiles ooElementSizeBytes : ℕ) :
    OutputTileDescriptor :=
  let elemsPerWord := 32 / t.elementTypeBitWidth
  let elemBytes := elementSizeBytes t.elementTypeBitWidth
  let outW := t.dimSize 1
  let tileN_sub := outW / numCoreTiles
  let fullOW := halo.owT * halo.wRounds
  let hChunks := halo.l2Rounds
  let totalElems := t.shape.foldl (· * ·) 1
  let perCoreElems := if 0 < numCoreTiles then totalElems / numCoreTiles else totalElems
  let outRounds := if 0 < ps.kernelTiling.outRounds then ps.kernelTiling.outRounds else halo.wRounds * hChunks
  let slabElems := if 0 < outRounds then perCoreElems / outRounds else perCoreElems
  let colElems := halo.owT * tileN_sub
  let oh := if 0 < colElems then slabElems / colElems else 1
  let ohPerRow := if oh = 0 then 1 else oh
  { bdLenBytes := ohPerRow * halo.owT * tileN_sub * ooElementSizeBytes
    bdDims := [(4, tileN_sub / elemsPerWord), (outW * elemBytes, halo.owT),
      (fullOW * outW * elemBytes, ohPerRow)]
    iterStep := i32 (halo.owT * outW * elemBytes : ℕ)
    iterWrap := i32 halo.wRounds
    totalRounds := hChunks
    roundDims := [(hChunks, ohPerRow * fullOW * outW * elemBytes)]
    : OutputTileDescriptor }

/-- GEMM output: the policy says whether M or N sub-tiles are host rounds. -/
def gemmDesc (nOuterPolicy : Bool) (t : MemRefType) (numCoreTiles ooElementSizeBytes : ℕ) :
    OutputTileDescriptor :=
  let elemsPerWord := 32 / t.elementTypeBitWidth
  let outW := t.dimSize 1
  let outW_w := outW / elemsPerWord
  let mRounds := if 0 < ps.tileM then ps.tileRows / ps.tileM else 1
  let nSplit : Bool := decide (0 < ps.tileN ∧ ps.tileN < ps.tileCols)
  let nRounds := if nSplit then ps.tileCols / ps.tileN else 1
  let tileN_sub := if nSplit then ps.tileN else outW / numCoreTiles
  let tileN_sub_w := tileN_sub / elemsPerWord
  let outerRounds := if nOuterPolicy then nRounds else mRounds
  let outerStrideBytes := if nOuterPolicy then tileN_sub_w * 4 else ps.tileM * outW_w * 4
  { bdLenBytes := ps.tileM * tileN_sub * ooElementSizeBytes
    iterStep := if nOuterPolicy then i32 (ps.tileM * outW_w * 4 : ℕ) else i32 (tileN_sub_w * 4 : ℕ)
    iterWrap := if nOuterPolicy then i32 mRounds else i32 nRounds
    totalRounds := outerRounds
    bdDims := [(4, tileN_sub_w), (outW_w * 4, ps.tileM)]
    roundDims := [(outerRounds, outerStrideBytes)]
    : OutputTileDescriptor }

def buildOutputTileDescriptor (t : MemRefType) (numCoreTiles : ℕ) (nOuterPolicy : Bool)
    (ooElementSizeBytes : ℕ) (tiling : Option (List TilingDim)) : OutputTileDescriptor :=
  let halo := detectConvHalo ps.tensorInfo
  if halo.valid then
    if t.rank = 3 then
      match tiling with
      | some [d0, d1, d2] => convDesc ps.outputTileMajor t.elementTypeBitWidth ooElementSizeBytes
        ![d0, d1, d2]
      | _ => convFallbackDesc ps halo t ooElementSizeBytes
    else haloDesc ps halo t numCoreTiles ooElementSizeBytes
  else gemmDesc ps nOuterPolicy t numCoreTiles ooElementSizeBytes

end AieHlc.Lower
