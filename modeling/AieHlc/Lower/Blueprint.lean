import AieHlc.Dma.Walk
import AieHlc.Lower.State
import AieHlc.Word.Int32

/-!
# Shim dimensions chosen by the blueprint pass

The push conversion picks the dimensions of an input's shim descriptor, the pull
conversion those of an output's. Strides are in bytes and computed in 32-bit
words first; both arrays are stored as 32-bit attributes.

* `pushShimDims`: user transform, K-tiling, width-split halo or K-accumulating
  halo, first match wins.
* `pullShimDims`: a row strip assembled from the tiles of several cores.
-/

namespace AieHlc.Lower

open AieHlc.Dma AieHlc.Word

/-- One byte stride of a user transform, rounded up to whole words. -/
def userByteStride (bytesPerElem : ℕ) (elemStride : ℤ) : ℤ :=
  let byteStride := i32 (elemStride * bytesPerElem)
  if 0 < byteStride ∧ byteStride < 4 then 4
  else if byteStride.tmod 4 ≠ 0 then i32 ((i32 (byteStride + 4 - 1)).tdiv 4 * 4)
  else byteStride

def userShimDims (bitWidth : ℕ) (sd : ShimDma) : List Dim :=
  List.zipWith Dim.mk (sd.strides.map (userByteStride (elementSizeBytes bitWidth))) sd.wraps

/-- K-tiling: `effectiveK` columns of each row of the view, in a buffer of `fullK` columns. -/
def kTilingDims (tiling : GemmTilingScalars) (dataId : ℤ) (view : MemRefType) : Option (List Dim) :=
  let effectiveK := tiling.effectiveK
  let fullK := tiling.fullK
  let tileM := tiling.tileM
  if 0 < effectiveK ∧ effectiveK < fullK ∧ view.rank = 2 then
    let elemsPerWord := 32 / view.elementTypeBitWidth
    let partRows := view.dimSize 0
    let effK_w := effectiveK / elemsPerWord
    let fullK_w := fullK / elemsPerWord
    if 0 < tileM ∧ tileM < partRows then
      -- rows of a sub-tile: tile_n for input B, tile_m otherwise
      let subTileDim := if dataId = 0 ∧ 0 < tiling.tileN then tiling.tileN else tileM
      let kRounds := fullK / effectiveK
      some [⟨4, i32 effK_w⟩, ⟨i32 (fullK_w * 4 : ℕ), i32 subTileDim⟩, ⟨i32 (effK_w * 4 : ℕ), i32 kRounds⟩]
    else
      some [⟨4, i32 effK_w⟩, ⟨i32 (fullK_w * 4 : ℕ), i32 partRows⟩]
  else none

/-- Width-split halo: `slice` rows of a narrow chunk, a row pitch apart. -/
def widthSplitDims (bufSize : ℕ) (h : Halo) (view : MemRefType) : Option (List Dim) :=
  if 0 < h.rowPitch ∧ 0 < h.slice ∧ 0 < bufSize then
    let elemsPerWord := 32 / view.elementTypeBitWidth
    let chunkWidthElems := bufSize / h.slice
    if 0 < chunkWidthElems ∧ 0 < elemsPerWord then
      let chunkW_w := chunkWidthElems / elemsPerWord
      let rowPitch_w := h.rowPitch / elemsPerWord
      some [⟨4, i32 chunkW_w⟩, ⟨i32 (rowPitch_w * 4 : ℕ), i32 h.slice⟩]
    else none
  else none

/-- K-accumulating halo: `kRounds` bands of `l2Slice` rows. -/
def kAccumDims (h : Halo) (view : MemRefType) : Option (List Dim) :=
  if 0 < h.kSlice ∧ 0 < h.kStep ∧ 0 < h.l2Slice ∧ 0 < h.rowPitch then
    let elemsPerWord := 32 / view.elementTypeBitWidth
    if 0 < elemsPerWord then
      let kSlice_w := h.kSlice / elemsPerWord
      let rowPitch_w := h.rowPitch / elemsPerWord
      let kStep_w := h.kStep / elemsPerWord
      some [⟨4, i32 kSlice_w⟩, ⟨i32 (rowPitch_w * 4 : ℕ), i32 h.l2Slice⟩,
        ⟨i32 (kStep_w * 4 : ℕ), i32 h.kRounds⟩]
    else none
  else none

/-- Dimensions of an input's shim descriptor. `argIdx` is negative where the root view does not come
from a function argument. -/
def pushShimDims (m : Module) (argIdx dataId : ℤ) (view : MemRefType) : Option (List Dim) :=
  let tensorIdx := if argIdx < 0 then dataId else argIdx
  let desc := (lookupTensorRoutingInfo m.tensorInfo tensorIdx).getD {}
  match desc.halo with
  | none =>
    match desc.shimDma with
    | some sd =>
      if desc.layoutTransform = "core_shuffle" then kTilingDims m.readGemmTilingScalars dataId view
      else some (userShimDims view.elementTypeBitWidth sd)
    | none => kTilingDims m.readGemmTilingScalars dataId view
  | some h =>
    -- with K bands, the three-dimensional descriptor is preferred
    if 1 < h.kRounds then kAccumDims h view
    else if 1 < h.wRounds then widthSplitDims (spatialHaloBufSize m.tensorInfo) h view
    else none

/-- Dimensions of an output's shim descriptor: tile words, rows of the strip, tiles. -/
def pullShimDims (root view : MemRefType) (sourceTiles : ℕ) : Option (List Dim) :=
  if view.rank = 2 ∧ root.rank = 2 then
    let outW := root.dimSize 1
    let stripH := view.dimSize 0
    let numTileCols := sourceTiles
    let tileW := outW / numTileCols
    if 1 < numTileCols then
      let elemsPerWord := 32 / root.elementTypeBitWidth
      let tileW_w := tileW / elemsPerWord
      let outW_w := outW / elemsPerWord
      some [⟨4, i32 tileW_w⟩, ⟨i32 (outW_w * 4 : ℕ), i32 stripH⟩, ⟨i32 (tileW_w * 4 : ℕ), i32 numTileCols⟩]
    else none
  else none

end AieHlc.Lower
