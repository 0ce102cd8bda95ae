import AieHlc.Front.Derive
import AieHlc.Lower.State

/-!
# The GEMM tiling as an attribute

The derived tiling travels to the passes as one `#routing.tiling` on each partitioned tensor: per
dimension a level for the mesh and, where the core works in rounds, a level inside it. The passes
read the sizes back from the tensors of the module.

* `populateGemmTiling`: the levels of A, B and C; `buildGemmTilingAttr`: the attribute, which drops
  a level of one round.
* `partitionTensors`: the tensors in the order the module holds them, by axis.
* `readGemmTilingScalars`: the reader. It takes the rounds of a missing level from the mesh, and
  whatever unmeshed dimension has rounds for K.
* `round_trip_iff`: which tilings come back.
-/

namespace AieHlc.Front

open Option AieHlc.Lower

inductive Axis where
  | col
  | row
deriving DecidableEq, Repr

structure GemmDimTile where
  base : ℕ := 0
  meshSlice : ℕ := 0
  meshStep : ℕ := 0
  meshRounds : ℕ := 1
  coreSlice : ℕ := 0
  coreStep : ℕ := 0
  coreRounds : ℕ := 1
deriving DecidableEq, Repr

structure TensorSplitDesc where
  splitDim : ℕ
  hwAxisOwner : Option Axis
  replicateOn : Option Axis
  gemmTiling : List GemmDimTile := []
deriving DecidableEq, Repr

structure TensorParam where
  shape : List ℕ
  isInput : Bool
deriving DecidableEq, Repr

/-! ## Writing -/

def meshLevel (base meshSlice meshRounds coreSlice coreRounds : ℕ) : GemmDimTile where
  base := base
  meshSlice := meshSlice
  meshStep := meshSlice
  meshRounds := meshRounds
  coreSlice := coreSlice
  coreStep := coreSlice
  coreRounds := coreRounds

namespace DerivedTilingParams

variable (d : DerivedTilingParams)

def onCoreM : ℕ := if 0 < d.tileM then d.tileM else d.tileRows
def onCoreN : ℕ := if 0 < d.tileN then d.tileN else d.tileCols
def onCoreK : ℕ := if 0 < d.effectiveK then d.effectiveK else d.kDim
def mRounds : ℕ := if 0 < d.spatialMRounds then d.spatialMRounds else 1
def nRounds : ℕ := if 0 < d.spatialNRounds then d.spatialNRounds else 1
def kRoundsOr : ℕ := if 0 < d.kRounds then d.kRounds else 1

end DerivedTilingParams

/-- The two dimensions of a tensor, the split one at its place. -/
def placeDims (splitDim : ℕ) (split other : GemmDimTile) : List GemmDimTile :=
  if splitDim = 0 then [split, other] else [other, split]

/-- The levels of one tensor: nothing for a tensor that is not a matrix, or an input no axis owns. -/
def populateTensor (d : DerivedTilingParams) (meshRows meshCols : ℕ) (split : TensorSplitDesc)
    (tensor : TensorParam) : TensorSplitDesc :=
  match tensor.shape with
  | [d0, d1] =>
    let splitExtent := if split.splitDim = 0 then d0 else d1
    let otherExtent := if split.splitDim = 0 then d1 else d0
    let levelM := meshLevel splitExtent d.tileRows meshRows d.onCoreM d.mRounds
    let levelK := meshLevel otherExtent otherExtent 1 d.onCoreK d.kRoundsOr
    match tensor.isInput, split.hwAxisOwner with
    | true, some .row => { split with gemmTiling := placeDims split.splitDim levelM levelK }
    | true, some .col =>
      let levelN := meshLevel splitExtent d.tileCols meshCols d.onCoreN d.nRounds
      { split with gemmTiling := placeDims split.splitDim levelN levelK }
    | true, none => { split with gemmTiling := [] }
    | false, _ =>
      let levelN := meshLevel otherExtent d.tileCols meshCols d.onCoreN d.nRounds
      { split with gemmTiling := placeDims split.splitDim levelM levelN }
  | _ => { split with gemmTiling := [] }

def populateGemmTiling (splits : List TensorSplitDesc) (tensors : List TensorParam) (d : DerivedTilingParams)
    (meshRows meshCols : ℕ) : List TensorSplitDesc :=
  if d.valid ∧ 0 < meshRows ∧ 0 < meshCols then
    List.zipWith (populateTensor d meshRows meshCols) splits tensors ++ splits.drop tensors.length
  else splits

/-- A level of a dimension. The level inside it is left out unless the core works in several rounds. -/
def buildDim (t : GemmDimTile) : TilingDim :=
  let meshSlice := if 0 < t.meshSlice then t.meshSlice else t.base
  let meshStep := if 0 < t.meshStep then t.meshStep else meshSlice
  let meshRounds := if 0 < t.meshRounds then t.meshRounds else 1
  let coreLevel :=
    if 1 < t.coreRounds ∧ 0 < t.coreSlice then
      some (.mk meshSlice (t.coreSlice * t.coreRounds) t.coreSlice
        (if 0 < t.coreStep then t.coreStep else t.coreSlice) t.coreRounds none)
    else none
  { outer := .mk t.base (meshSlice * meshRounds) meshSlice meshStep meshRounds coreLevel }

def buildGemmTilingAttr (gemmTiling : List GemmDimTile) : List TilingDim := gemmTiling.map buildDim

/-- A partitioned tensor of the module. -/
structure PartitionTensor where
  splitDim : ℕ
  hwAxisOwner : Option Axis
  tiling : List TilingDim

namespace TensorSplitDesc

def effectiveAxis (s : TensorSplitDesc) : Axis :=
  match s.hwAxisOwner, s.replicateOn with
  | some a, _ => a
  | none, some a => a
  | none, none => .row

def partitionTensor (s : TensorSplitDesc) : PartitionTensor where
  splitDim := s.splitDim
  hwAxisOwner := s.hwAxisOwner
  tiling := buildGemmTilingAttr s.gemmTiling

end TensorSplitDesc

/-- The tensors in the order of the module: one region per axis, the axes by name. -/
def partitionTensors (splits : List TensorSplitDesc) : List PartitionTensor :=
  ((splits.filter fun s => s.effectiveAxis = .col) ++ splits.filter fun s => s.effectiveAxis = .row).map
    TensorSplitDesc.partitionTensor

/-! ## Reading -/

/-- What the reader returns, with the rounds the passes do not use. -/
structure TilingScalars extends GemmTilingScalars where
  mRounds : ℕ := 0
  nRounds : ℕ := 0
deriving DecidableEq, Repr

variable (out : TilingScalars)

/-- An unmeshed dimension with rounds is taken for K. -/
def readK (dim : TilingDim) : TilingScalars :=
  match dim.outer.sliceTiling with
  | some onCore =>
    if dim.outer.rounds = 1 then
      { out with effectiveK := onCore.slice, fullK := dim.outer.total, kRounds :=
        onCore.rounds, found := true }
    else out
  | none => out

/-- The split dimension, into the sizes of the axis that owns it. -/
def readSplit (owner : Option Axis) (level : Level) : TilingScalars :=
  let coreSlice := (level.sliceTiling.map Level.slice).getD level.slice
  let rounds := (level.sliceTiling.map Level.rounds).getD 0
  let rounds := if rounds = 0 ∧ 0 < coreSlice then level.total / coreSlice else rounds
  match owner with
  | some .row => { out with tileM := coreSlice, tileRows := level.slice, mRounds := rounds, found := true }
  | some .col => { out with tileN := coreSlice, tileCols := level.slice, nRounds := rounds, found := true }
  | none => out

def readTensor (pt : PartitionTensor) : TilingScalars :=
  match pt.tiling[pt.splitDim]? with
  | none => out
  | some split => (pt.tiling.eraseIdx pt.splitDim).foldl readK (readSplit out pt.hwAxisOwner split.outer)

/-- The tensors of a module in full-connect mode, later ones over earlier ones. -/
def readGemmTilingScalars (fullconnectAuto : Option ℤ) (tensors : List PartitionTensor) : TilingScalars :=
  if fullconnectAuto = some 1 then tensors.foldl readTensor {} else {}

/-! ## One dimension there and back -/

section Dim

variable {base meshSlice meshRounds coreSlice coreRounds : ℕ}

theorem buildDim_meshLevel (hslice : 0 < meshSlice ∨ base = meshSlice) (hrounds : 0 < meshRounds)
    (hcore : 0 < coreSlice) :
    (buildDim (meshLevel base meshSlice meshRounds coreSlice coreRounds)).outer =
      .mk base (meshSlice * meshRounds) meshSlice meshSlice meshRounds
        (if 1 < coreRounds then some (.mk meshSlice (coreSlice * coreRounds)
          coreSlice coreSlice coreRounds none)
        else none) := by
  have hmesh : (if 0 < meshSlice then meshSlice else base) = meshSlice := by
    split
    · rfl
    · omega
  unfold buildDim meshLevel
  simp only [hmesh, hrounds, hcore, if_true, and_true, ite_self]

theorem readK_meshLevel (hslice : 0 < meshSlice ∨ base = meshSlice) (hrounds : 0 < meshRounds)
    (hcore : 0 < coreSlice) :
    readK out (buildDim (meshLevel base meshSlice meshRounds coreSlice coreRounds)) =
      if meshRounds = 1 ∧ 1 < coreRounds then
        { out with effectiveK := coreSlice, fullK := meshSlice, kRounds := coreRounds, found := true }
      else out := by
  unfold readK
  rw [buildDim_meshLevel hslice hrounds hcore]
  by_cases hone : meshRounds = 1
  · subst hone
    by_cases hcr : 1 < coreRounds
    · simp [hcr, Level.sliceTiling, Level.rounds, Level.slice, Level.total]
    · simp [hcr, Level.sliceTiling]
  · by_cases hcr : 1 < coreRounds
    · simp [hcr, hone, Level.sliceTiling, Level.rounds]
    · simp [hcr, Level.sliceTiling]

/-- The rounds the reader finds: those of the core, or of the mesh where the core has one. -/
def roundsRead (meshRounds coreRounds : ℕ) : ℕ := if 1 < coreRounds then coreRounds else meshRounds

theorem readSplit_meshLevel (owner : Option Axis) (hrounds : 0 < meshRounds) (hcore : 0 < coreSlice)
    (hcr : 0 < coreRounds) (hmul : coreSlice * coreRounds = meshSlice) :
    readSplit out owner (buildDim (meshLevel base meshSlice meshRounds coreSlice coreRounds)).outer =
      match owner with
      | some .row => { out with tileM := coreSlice, tileRows := meshSlice,
                                mRounds := roundsRead meshRounds coreRounds, found := true }
      | some .col => { out with tileN := coreSlice, tileCols := meshSlice,
                                nRounds := roundsRead meshRounds coreRounds, found := true }
      | none => out := by
  have hslice : 0 < meshSlice := hmul ▸ Nat.mul_pos hcore hcr
  unfold readSplit roundsRead
  rw [buildDim_meshLevel (Or.inl hslice) hrounds hcore]
  by_cases hone : 1 < coreRounds
  · have hne : coreRounds ≠ 0 := by omega
    simp only [hone, hne, if_true, Level.sliceTiling, Level.slice, Level.rounds, map_some, getD_some,
      false_and, if_false]
  · -- one round: the level is missing, and the mesh's total over the slice is its rounds
    have hsame : coreSlice = meshSlice := by
      rw [show coreRounds = 1 by omega, mul_one] at hmul
      exact hmul
    have hdiv : meshSlice * meshRounds / meshSlice = meshRounds := Nat.mul_div_cancel_left _ hslice
    simp only [hone, if_false, Level.sliceTiling, Level.slice, Level.total, map_none, getD_none,
      hslice, and_self, if_true, hdiv, hsame]

end Dim

/-! ## The tensors of a GEMM -/

/-- Parameters of a GEMM whose rounds make up its tiles. -/
structure DerivedTilingParams.IsGemm (d : DerivedTilingParams) : Prop where
  valid : d.valid = true
  rows_pos : 0 < d.tileRows
  cols_pos : 0 < d.tileCols
  k_pos : 0 < d.kDim
  m : d.tileM * d.spatialMRounds = d.tileRows
  n : d.tileN * d.spatialNRounds = d.tileCols
  k : d.effectiveK * d.kRounds = d.kDim

/-- The sizes the passes are to see. -/
def DerivedTilingParams.scalars (d : DerivedTilingParams) : TilingScalars where
  tileM := d.tileM
  tileRows := d.tileRows
  mRounds := d.spatialMRounds
  tileN := d.tileN
  tileCols := d.tileCols
  nRounds := d.spatialNRounds
  effectiveK := d.effectiveK
  fullK := d.kDim
  kRounds := d.kRounds
  found := true

/-- A by rows, B by columns, and C gathered along either axis. -/
def gemmSplits (outAxis : Axis) : List TensorSplitDesc :=
  [⟨0, some .row, some .col, []⟩, ⟨0, some .col, some .row, []⟩,
    ⟨0, some outAxis, some (if outAxis = .row then .col else .row), []⟩]

/-- A of M by K, B of any two extents, C of M by N. -/
def gemmTensors (d : DerivedTilingParams) (meshRows meshCols b0 b1 : ℕ) : List TensorParam :=
  [⟨[d.tileRows * meshRows, d.kDim], true⟩, ⟨[b0, b1], true⟩,
    ⟨[d.tileRows * meshRows, d.tileCols * meshCols], false⟩]

def readBack (d : DerivedTilingParams) (meshRows meshCols b0 b1 : ℕ) (outAxis : Axis) : TilingScalars :=
  readGemmTilingScalars (some 1) (partitionTensors
    (populateGemmTiling (gemmSplits outAxis) (gemmTensors d meshRows meshCols b0 b1) d meshRows meshCols))

/-- Which tilings come back. A dimension of one round is read with the rounds of the mesh, K not at
all. On one mesh column the rounds of C along N are read for K; and a C gathered along the columns
has its rows read for N. -/
structure RoundTrips (d : DerivedTilingParams) (meshRows meshCols : ℕ) (outAxis : Axis) : Prop where
  k : 1 < d.kRounds
  m : 1 < d.spatialMRounds ∨ meshRows = 1
  n : outAxis = .row → 1 < d.spatialNRounds ∨ meshCols = 1
  col : outAxis = .row → meshCols = 1 → 1 < d.spatialNRounds →
    d.tileN = d.effectiveK ∧ d.tileCols = d.kDim ∧ d.spatialNRounds = d.kRounds
  square : outAxis = .col → d.tileM = d.tileN ∧ d.tileRows = d.tileCols

namespace DerivedTilingParams.IsGemm

variable {d : DerivedTilingParams} (hd : d.IsGemm)

include hd

theorem tileM_pos : 0 < d.tileM := Nat.pos_of_mul_pos_right (hd.m ▸ hd.rows_pos)

theorem spatialMRounds_pos : 0 < d.spatialMRounds := Nat.pos_of_mul_pos_left (hd.m ▸ hd.rows_pos)

theorem tileN_pos : 0 < d.tileN := Nat.pos_of_mul_pos_right (hd.n ▸ hd.cols_pos)

theorem spatialNRounds_pos : 0 < d.spatialNRounds := Nat.pos_of_mul_pos_left (hd.n ▸ hd.cols_pos)

theorem effectiveK_pos : 0 < d.effectiveK := Nat.pos_of_mul_pos_right (hd.k ▸ hd.k_pos)

theorem kRounds_pos : 0 < d.kRounds := Nat.pos_of_mul_pos_left (hd.k ▸ hd.k_pos)

end DerivedTilingParams.IsGemm

def matrixTensor (owner : Axis) (split other : GemmDimTile) : PartitionTensor where
  splitDim := 0
  hwAxisOwner := some owner
  tiling := [buildDim split, buildDim other]

theorem readTensor_matrix (owner : Axis) (split other : GemmDimTile) :
    readTensor out (matrixTensor owner split other) =
      readK (readSplit out (some owner) (buildDim split).outer) (buildDim other) := rfl

variable {d : DerivedTilingParams} {meshRows meshCols : ℕ}

theorem partitionTensors_gemm (hd : d.IsGemm) (hR : 0 < meshRows) (hC : 0 < meshCols) (b0 b1 : ℕ)
    (outAxis : Axis) :
    let levelM := meshLevel (d.tileRows * meshRows) d.tileRows meshRows d.tileM d.spatialMRounds
    let A := matrixTensor .row levelM (meshLevel d.kDim d.kDim 1 d.effectiveK d.kRounds)
    let B := matrixTensor .col (meshLevel b0 d.tileCols meshCols d.tileN d.spatialNRounds)
      (meshLevel b1 b1 1 d.effectiveK d.kRounds)
    let C := matrixTensor outAxis levelM
      (meshLevel (d.tileCols * meshCols) d.tileCols meshCols d.tileN d.spatialNRounds)
    partitionTensors
        (populateGemmTiling (gemmSplits outAxis) (gemmTensors d meshRows meshCols b0 b1) d
          meshRows meshCols) =
      match outAxis with
      | .row => [B, A, C]
      | .col => [B, C, A] := by
  have hm : d.onCoreM = d.tileM := if_pos hd.tileM_pos
  have hn : d.onCoreN = d.tileN := if_pos hd.tileN_pos
  have hk : d.onCoreK = d.effectiveK := if_pos hd.effectiveK_pos
  have hmr : d.mRounds = d.spatialMRounds := if_pos hd.spatialMRounds_pos
  have hnr : d.nRounds = d.spatialNRounds := if_pos hd.spatialNRounds_pos
  have hkr : d.kRoundsOr = d.kRounds := if_pos hd.kRounds_pos
  rw [populateGemmTiling, if_pos ⟨hd.valid, hR, hC⟩, ← hm, ← hn, ← hk, ← hmr, ← hnr, ← hkr]
  cases outAxis <;> rfl

/-- What is read for K: that of A, unless C, read after A or before it, has rounds in an unmeshed
dimension. -/
def readForK (d : DerivedTilingParams) (meshCols : ℕ) (outAxis : Axis) : ℕ × ℕ × ℕ :=
  let a := (d.effectiveK, d.kDim, d.kRounds)
  let c := (d.tileN, d.tileCols, d.spatialNRounds)
  match outAxis with
  | .row => if meshCols = 1 ∧ 1 < d.spatialNRounds then c else if 1 < d.kRounds then a else (0, 0, 0)
  | .col => if 1 < d.kRounds then a else if meshCols = 1 ∧ 1 < d.spatialNRounds then c else (0, 0, 0)

theorem readBack_eq (hd : d.IsGemm) (hR : 0 < meshRows) (hC : 0 < meshCols) (b0 b1 : ℕ) (outAxis : Axis) :
    let K := readForK d meshCols outAxis
    let N := match outAxis with
      | .row => (d.tileN, d.tileCols, roundsRead meshCols d.spatialNRounds)
      | .col => (d.tileM, d.tileRows, roundsRead meshRows d.spatialMRounds)
    readBack d meshRows meshCols b0 b1 outAxis =
      { tileM := d.tileM, tileRows := d.tileRows, mRounds := roundsRead meshRows d.spatialMRounds
        tileN := N.1, tileCols := N.2.1, nRounds := N.2.2
        effectiveK := K.1, fullK := K.2.1, kRounds := K.2.2, found := true } := by
  unfold readBack readGemmTilingScalars readForK
  rw [if_pos rfl, partitionTensors_gemm hd hR hC]
  cases outAxis <;>
    simp only [List.foldl_cons, List.foldl_nil, readTensor_matrix,
      readSplit_meshLevel _ _ hC hd.tileN_pos hd.spatialNRounds_pos hd.n,
      readSplit_meshLevel _ _ hR hd.tileM_pos hd.spatialMRounds_pos hd.m,
      readK_meshLevel _ (Or.inr rfl) Nat.one_pos hd.effectiveK_pos, readK_meshLevel _
        (Or.inl hd.cols_pos) hC hd.tileN_pos] <;>
    by_cases hk : 1 < d.kRounds <;> by_cases hn : meshCols = 1 ∧ 1 < d.spatialNRounds <;>
      simp only [hk, hn, and_self, and_false, if_true, if_false]

/-- The reader's rounds are the core's unless it has a single one on a mesh of several. -/
theorem roundsRead_eq_iff {mesh core : ℕ} (hcore : 0 < core) :
    roundsRead mesh core = core ↔ 1 < core ∨ mesh = 1 := by
  unfold roundsRead
  split <;> omega

/-- **Round trip.** The tilings of a GEMM that the module gives back. -/
theorem round_trip_iff (hd : d.IsGemm) (hR : 0 < meshRows) (hC : 0 < meshCols) (b0 b1 : ℕ) (outAxis : Axis) :
    readBack d meshRows meshCols b0 b1 outAxis = d.scalars ↔ RoundTrips d meshRows meshCols outAxis := by
  have hmiff := @roundsRead_eq_iff meshRows _ hd.spatialMRounds_pos
  cases outAxis with
  | row =>
    have hniff := @roundsRead_eq_iff meshCols _ hd.spatialNRounds_pos
    rw [readBack_eq hd hR hC]
    dsimp only [readForK]
    constructor
    · intro h
      have hm := hmiff.1 (congrArg TilingScalars.mRounds h)
      have hn := hniff.1 (congrArg TilingScalars.nRounds h)
      have heff := congrArg (fun s => s.toGemmTilingScalars.effectiveK) h
      have hfull := congrArg (fun s => s.toGemmTilingScalars.fullK) h
      have hkr := congrArg (fun s => s.toGemmTilingScalars.kRounds) h
      by_cases hover : meshCols = 1 ∧ 1 < d.spatialNRounds
      · -- C's rounds along N stand where K was
        simp only [if_pos hover] at heff hfull hkr
        exact ⟨hover.2.trans_eq hkr, hm, fun _ => hn, fun _ _ _ => ⟨heff, hfull, hkr⟩, nofun⟩
      · simp only [if_neg hover] at heff hfull hkr
        refine ⟨?_, hm, fun _ => hn, fun _ hc hn' => absurd ⟨hc, hn'⟩ hover, nofun⟩
        by_contra hone
        rw [if_neg hone] at hfull
        exact hd.k_pos.ne hfull
    · intro h
      have hK : (if meshCols = 1 ∧ 1 < d.spatialNRounds then (d.tileN, d.tileCols, d.spatialNRounds)
          else if 1 < d.kRounds then (d.effectiveK, d.kDim, d.kRounds) else (0, 0, 0)) =
            (d.effectiveK, d.kDim, d.kRounds) := by
        split
        · rename_i hover
          obtain ⟨h1, h2, h3⟩ := h.col rfl hover.1 hover.2
          rw [h1, h2, h3]
        · exact if_pos h.k
      rw [hK, hmiff.2 h.m, hniff.2 (h.n rfl)]
      rfl
  | col =>
    rw [readBack_eq hd hR hC]
    dsimp only [readForK]
    constructor
    · intro h
      have hm := hmiff.1 (congrArg TilingScalars.mRounds h)
      have hn : d.tileM = d.tileN := congrArg (fun s => s.toGemmTilingScalars.tileN) h
      have hc : d.tileRows = d.tileCols := congrArg (fun s => s.toGemmTilingScalars.tileCols) h
      have hkr := congrArg (fun s => s.toGemmTilingScalars.kRounds) h
      have hfull := congrArg (fun s => s.toGemmTilingScalars.fullK) h
      refine ⟨?_, hm, nofun, nofun, fun _ => ⟨hn, hc⟩⟩
      by_contra hone
      simp only [if_neg hone] at hkr hfull
      split at hkr
      · rename_i hover
        have hkr' : d.spatialNRounds = d.kRounds := hkr
        omega
      · rename_i hover
        rw [if_neg hover] at hfull
        exact hd.k_pos.ne hfull
    · intro h
      obtain ⟨hn, hc⟩ := h.square rfl
      have hrounds : d.spatialMRounds = d.spatialNRounds := by
        have hmul := hd.m.trans (hc.trans hd.n.symm)
        rw [hn] at hmul
        exact Nat.eq_of_mul_eq_mul_left hd.tileN_pos hmul
      rw [if_pos h.k, hmiff.2 h.m, DerivedTilingParams.scalars, ← hn, ← hc, ← hrounds]

def squareParams : DerivedTilingParams where
  tileRows := 8
  tileCols := 8
  kDim := 16
  tileM := 4
  tileN := 4
  effectiveK := 8
  spatialMRounds := 2
  spatialNRounds := 2
  kRounds := 2
  valid := true

theorem squareParams_isGemm : squareParams.IsGemm := ⟨rfl, by decide, by decide, by decide, rfl, rfl, rfl⟩

/-- They come back on a mesh of two by two. -/
theorem round_trip_square : readBack squareParams 2 2 16 16 .row = squareParams.scalars :=
  (round_trip_iff squareParams_isGemm (by decide) (by decide) 16 16 .row).2
    ⟨by decide, Or.inl (by decide), fun _ => Or.inl (by decide), fun _ h => absurd h (by decide), nofun⟩

/-- On a single mesh column K comes back as N. With one round along M the rows of the mesh come back
as rounds, and with one round along K nothing does. -/
theorem not_round_trip :
    (squareParams.IsGemm ∧ (readBack squareParams 2 1 16 8 .row).toGemmTilingScalars.effectiveK ≠
        squareParams.effectiveK) ∧
      (∃ d : DerivedTilingParams, d.IsGemm ∧ d.spatialMRounds = 1 ∧ (readBack d 2 2 16 16 .row).mRounds = 2) ∧
      ∃ d : DerivedTilingParams, d.IsGemm ∧ d.kDim = 16 ∧
        (readBack d 2 2 16 16 .row).toGemmTilingScalars.fullK = 0 := by
  refine ⟨⟨squareParams_isGemm, by decide⟩, ⟨{ squareParams with tileM := 8, spatialMRounds := 1
    }, ?_, rfl, by decide⟩,
    ⟨{ squareParams with effectiveK := 16, kRounds := 1 }, ?_, rfl, by decide⟩⟩
  · exact ⟨rfl, by decide, by decide, by decide, rfl, rfl, rfl⟩
  · exact ⟨rfl, by decide, by decide, by decide, rfl, rfl, rfl⟩

end AieHlc.Front
