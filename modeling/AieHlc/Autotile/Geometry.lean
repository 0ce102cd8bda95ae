import AieHlc.Autotile.Fit
import AieHlc.Grid.Interval
import Mathlib.Tactic.Linarith

/-!
# Geometry of a derived convolution

What every size of a legal derivation is, whichever way its time tile was found, and
what follows for the blocks: the output blocks cut the output into disjoint parts,
and the input block of a core's round holds every input the outputs of that round read.

* `Geometry`: the sizes and how they divide one another.
* `deriveFixed_geometry`, `derive_ok`: a derivation that returns ok has it.
* `derive_blocks`: **the blocks of a derivation that returns ok**.
* `ofmBlock`, `ifmBlock`: the blocks of a place, as sets of coordinates.
-/

namespace AieHlc.Autotile

open List AieHlc.Grid

variable {a ca : ℤ} {c conv : Conv2dSpec} {m : MappingSpec} {tgt : Target} {d : Derived}

/-- The sizes of a legal derivation. -/
structure Geometry (c : Conv2dSpec) (m : MappingSpec) (d : Derived) : Prop where
  hPad : d.hPad = c.h + 2 * c.pad
  wPad : d.wPad = c.w + 2 * c.pad
  oh : d.oh = (c.h + 2 * c.pad - c.ekh).tdiv c.stride + 1
  ow : d.ow = (c.w + 2 * c.pad - c.ekw).tdiv c.stride + 1
  meshRows : d.meshRows = m.spaceRows.factor
  meshCols : d.meshCols = m.spaceCols.factor
  meshRows_pos : 0 < d.meshRows
  meshCols_pos : 0 < d.meshCols
  ohMesh : d.ohMesh * d.meshRows = d.oh
  ocMesh : d.ocMesh * d.meshCols = c.k
  ohT_pos : 0 < d.ohT
  owT_pos : 0 < d.owT
  hRounds : d.hRounds * d.ohT = d.ohMesh
  wRounds : d.wRounds * d.owT = d.ow
  tileH : d.tileH = footprint d.ohT c.stride c.kh c.dil
  tileStepH : d.tileStepH = d.ohT * c.stride
  tileW : d.tileW = footprint d.owT c.stride c.kw c.dil
  tileStepW : d.tileStepW = d.owT * c.stride
  meshStepH : d.meshStepH = d.ohMesh * c.stride
  /-- the last mesh row reads inside the padded input -/
  rows_inside : (d.meshRows - 1) * d.meshStepH + d.meshSliceH ≤ d.hPad
  /-- so does the last width round -/
  cols_inside : (d.wRounds - 1) * d.tileStepW + d.tileW ≤ d.wPad
  /-- the rounds of a core end where its slice ends -/
  slice : (d.hRounds - 1) * d.tileStepH + d.tileH = d.meshSliceH

theorem tdiv_mul_of_not {b : ℤ} (h : ¬(b ≤ 0 ∨ a.tmod b ≠ 0)) : 0 < b ∧ a.tdiv b * b = a := by
  obtain ⟨hb, hm⟩ := not_or.1 h
  exact ⟨not_le.1 hb, Int.tdiv_mul_cancel (Int.dvd_of_tmod_eq_zero (not_not.1 hm))⟩

/-- **A fixed time tile that is legal has the geometry.** -/
theorem deriveFixed_geometry {ohT owT : ℤ} (hok : (deriveFixed c m tgt ca ohT owT).ok = true) :
    Geometry c m (deriveFixed c m tgt ca ohT owT) := by
  unfold deriveFixed at hok ⊢
  -- each early return leaves `ok` at its default
  by_cases h1 : (fixedOutput c m ca).meshRows ≤ 0 ∨
      (fixedOutput c m ca).oh.tmod (fixedOutput c m ca).meshRows ≠ 0
  · rw [if_pos h1] at hok
    cases hok
  rw [if_neg h1] at hok ⊢
  by_cases h2 : (fixedOutput c m ca).meshCols ≤ 0 ∨ c.k.tmod (fixedOutput c m ca).meshCols ≠ 0
  · rw [if_pos h2] at hok
    cases hok
  rw [if_neg h2] at hok ⊢
  set d := fixedMesh c (fixedOutput c m ca) ohT owT with hd
  by_cases h3 : ohT ≤ 0 ∨ d.ohMesh.tmod ohT ≠ 0
  · rw [if_pos h3] at hok
    cases hok
  rw [if_neg h3] at hok ⊢
  by_cases h4 : owT ≤ 0 ∨ d.ow.tmod owT ≠ 0
  · rw [if_pos h4] at hok
    cases hok
  rw [if_neg h4] at hok ⊢
  -- what is collected is empty, so each collected check passed
  have hnil := isEmpty_iff.1 hok
  simp only [append_eq_nil_iff, haloErrors, complain_eq_nil, not_lt, not_not] at hnil
  obtain ⟨⟨⟨hrow, hcol⟩, hslice⟩, -⟩ := hnil
  obtain ⟨hr, hoh⟩ := tdiv_mul_of_not h1
  obtain ⟨hc, hoc⟩ := tdiv_mul_of_not h2
  obtain ⟨ht, hhr⟩ := tdiv_mul_of_not h3
  obtain ⟨hw, hwr⟩ := tdiv_mul_of_not h4
  exact ⟨rfl, rfl, rfl, rfl, rfl, rfl, hr, hc, hoh, hoc, ht, hw, hhr, hwr, rfl, rfl, rfl, rfl,
    rfl, hrow, hcol, hslice⟩

/-- What a valid convolution is: the first check of `validateSpec`. -/
structure ValidConv (c : Conv2dSpec) : Prop where
  h_pos : 0 < c.h
  w_pos : 0 < c.w
  c_pos : 0 < c.c
  k_pos : 0 < c.k
  kh_pos : 0 < c.kh
  kw_pos : 0 < c.kw
  stride_pos : 0 < c.stride
  pad_nonneg : 0 ≤ c.pad

theorem validConv_of_validateSpec (h : validateSpec c m = []) : ValidConv c := by
  simp only [validateSpec, append_eq_nil_iff, complain_eq_nil, not_or, not_le, not_lt] at h
  obtain ⟨⟨⟨⟨⟨⟨hh, hw, hc, hk, hkh, hkw, hs, hp⟩, -⟩, -⟩, -⟩, -⟩, -⟩ := h
  exact ⟨hh, hw, hc, hk, hkh, hkw, hs, hp⟩

theorem Conv2dSpec.dil_pos (c : Conv2dSpec) : 0 < c.dil := by
  unfold Conv2dSpec.dil
  split <;> omega

theorem mem_enumerateCandidates (hd : d ∈ enumerateCandidates conv m tgt) :
    d.ok = true ∧ Geometry conv m d := by
  unfold enumerateCandidates at hd
  dsimp only at hd
  split_ifs at hd with hv hp
  · cases hd
  · cases hd
  simp only [mem_mergeSort, mem_flatMap] at hd
  obtain ⟨th, -, tw, -, hd⟩ := hd
  split_ifs at hd with hok
  · rw [mem_singleton.1 hd]
    exact ⟨hok, deriveFixed_geometry hok⟩
  · cases hd

theorem Geometry.of_cAlign {c : Conv2dSpec} {d : Derived} {ca : ℤ}
    (g : Geometry { c with cAlign := ca } m d) : Geometry c m d := by
  cases g
  constructor <;> assumption

theorem Geometry.of_notes {auto : Bool} {notes : List String} (g : Geometry c m d) :
    Geometry c m { d with timeAutotuned := auto, notes := notes } := by
  cases g
  constructor <;> assumption

theorem Geometry.of_hints {ov : Overrides} (g : Geometry c (ov.applyHints m) d) : Geometry c m d := by
  cases g
  constructor <;> assumption

theorem autotune_geometry (hok : (autotune conv m tgt ca).ok = true) :
    Geometry conv m (autotune conv m tgt ca) := by
  unfold autotune at hok ⊢
  cases hc : enumerateCandidates { conv with cAlign := ca } m tgt with
  | nil =>
    rw [hc] at hok
    cases hok
  | cons d ds =>
    have hd : d ∈ enumerateCandidates { conv with cAlign := ca } m tgt := hc ▸ mem_cons_self
    exact (mem_enumerateCandidates hd).2.of_cAlign.of_notes

/-- **Every derivation that returns ok has the geometry**, autotuned or not. -/
theorem derive_ok {ov : Overrides} (hok : (derive conv m tgt ov).ok = true) :
    ValidConv conv ∧ Geometry conv m (derive conv m tgt ov) := by
  unfold derive at hok ⊢
  by_cases hv : validateSpec conv m = []
  · rw [if_neg (not_not.2 hv)] at hok ⊢
    refine ⟨validConv_of_validateSpec hv, ?_⟩
    dsimp only at hok ⊢
    by_cases hca : resolveCAlign conv tgt ov < conv.c
    · rw [if_pos hca] at hok
      cases hok
    rw [if_neg hca] at hok ⊢
    by_cases hauto : (ov.applyHints m).time = [] ∧ ov.timeOh = 0 ∧ ov.timeOw = 0
    · rw [if_pos hauto] at hok ⊢
      exact (autotune_geometry hok).of_hints
    rw [if_neg hauto] at hok ⊢
    by_cases hp : (deriveFixed conv (ov.applyHints m) tgt (resolveCAlign conv tgt ov) 1 1).ohMesh ≤ 0
    · rw [if_pos hp] at hok ⊢
      exact (deriveFixed_geometry hok).of_hints
    · rw [if_neg hp] at hok ⊢
      exact (deriveFixed_geometry hok).of_hints
  · rw [if_pos hv] at hok
    cases hok

/-- Where a block stands: mesh row and column, height round and width round. -/
@[ext]
structure Place where
  p0 : ℤ
  p1 : ℤ
  i : ℤ
  j : ℤ

def places (d : Derived) : Set Place :=
  {q | q.p0 ∈ Set.Ico 0 d.meshRows ∧ q.p1 ∈ Set.Ico 0 d.meshCols ∧
    q.i ∈ Set.Ico 0 d.hRounds ∧ q.j ∈ Set.Ico 0 d.wRounds}

/-- The extent of a fit's block in one dimension. -/
def PortFit.side (f : PortFit) (q : Place) (k : ℕ) : Set ℤ :=
  Set.Ico (f.offset q.p0 q.p1 q.i q.j k) (f.offset q.p0 q.p1 q.i q.j k + f.shape.getD k 0)

/-- A block of a rank-3 fit. -/
def PortFit.box (f : PortFit) (q : Place) : Set (ℤ × ℤ × ℤ) :=
  f.side q 0 ×ˢ f.side q 1 ×ˢ f.side q 2

def ofmBlock (d : Derived) (q : Place) : Set (ℤ × ℤ × ℤ) :=
  Set.Ico (q.p0 * d.ohMesh + q.i * d.ohT) (q.p0 * d.ohMesh + q.i * d.ohT + d.ohT) ×ˢ
    Set.Ico (q.j * d.owT) (q.j * d.owT + d.owT) ×ˢ Set.Ico (q.p1 * d.ocMesh) (q.p1 * d.ocMesh + d.ocMesh)

/-- The input block of a place, as the derived DMA delivers it. -/
def ifmBlock (c : Conv2dSpec) (d : Derived) (q : Place) : Set (ℤ × ℤ × ℤ) := (expectedFit .IFM c d).box q

theorem mem_ifmBlock {q : Place} {r s t : ℤ} :
    (r, s, t) ∈ ifmBlock c d q ↔
      r ∈ Set.Ico (q.p0 * d.meshStepH + q.i * d.tileStepH)
          (q.p0 * d.meshStepH + q.i * d.tileStepH + d.tileH) ∧
        s ∈ Set.Ico (q.j * d.tileStepW) (q.j * d.tileStepW + d.tileW) ∧ t ∈ Set.Ico 0 d.cAlign := by
  simp [ifmBlock, PortFit.box, PortFit.side, PortFit.offset, expectedFit]

/-- The place whose block holds a point of the output. -/
def placeOf (d : Derived) (v : ℤ × ℤ × ℤ) : Place :=
  { p0 := v.1 / d.ohT / d.hRounds
    p1 := v.2.2 / d.ocMesh
    i := v.1 / d.ohT % d.hRounds
    j := v.2.1 / d.owT }

def output (c : Conv2dSpec) (d : Derived) : Set (ℤ × ℤ × ℤ) :=
  Set.Ico 0 d.oh ×ˢ Set.Ico 0 d.ow ×ˢ Set.Ico 0 c.k

namespace Geometry

variable {c : Conv2dSpec} {m : MappingSpec} {d : Derived} {q : Place}

theorem ocMesh_pos (g : Geometry c m d) (hk : 0 < c.k) : 0 < d.ocMesh := by
  rw [← g.ocMesh] at hk
  exact pos_of_mul_pos_left hk g.meshCols_pos.le

theorem mem_ofmBlock (g : Geometry c m d) (hk : 0 < c.k) (hq : q ∈ places d) (v : ℤ × ℤ × ℤ) :
    v ∈ ofmBlock d q ↔ placeOf d v = q := by
  obtain ⟨-, -, ⟨hi0, hi⟩, -⟩ := hq
  have hrow : v.1 ∈ Set.Ico (q.p0 * d.ohMesh + q.i * d.ohT) (q.p0 * d.ohMesh + q.i * d.ohT + d.ohT) ↔
      v.1 / d.ohT / d.hRounds = q.p0 ∧ v.1 / d.ohT % d.hRounds = q.i := by
    rw [← g.hRounds, tile_nested, mem_tile g.ohT_pos]
    exact digits_iff hi0 hi
  have hcol : v.2.1 ∈ tile d.owT q.j ↔ v.2.1 / d.owT = q.j := mem_tile g.owT_pos
  have hchan : v.2.2 ∈ tile d.ocMesh q.p1 ↔ v.2.2 / d.ocMesh = q.p1 := mem_tile (g.ocMesh_pos hk)
  rw [ofmBlock, Set.mem_prod, Set.mem_prod, hrow, ← tile, hcol, ← tile, hchan, Place.ext_iff]
  simp only [placeOf]
  tauto

theorem placeOf_mem (g : Geometry c m d) (hk : 0 < c.k) (v : ℤ × ℤ × ℤ) :
    v ∈ output c d ↔ placeOf d v ∈ places d := by
  have hoh : d.oh = d.meshRows * d.hRounds * d.ohT := by
    rw [← g.ohMesh, ← g.hRounds]
    ring
  have hrow : v.1 ∈ Set.Ico 0 d.oh ↔
      v.1 / d.ohT / d.hRounds ∈ Set.Ico 0 d.meshRows ∧ v.1 / d.ohT % d.hRounds ∈ Set.Ico 0 d.hRounds := by
    rw [hoh, mem_Ico_tiles g.ohT_pos, mem_Ico_digits g.meshRows_pos]
  have hcol : v.2.1 ∈ Set.Ico 0 d.ow ↔ v.2.1 / d.owT ∈ Set.Ico 0 d.wRounds := by
    rw [← g.wRounds, mem_Ico_tiles g.owT_pos]
  have hchan : v.2.2 ∈ Set.Ico 0 c.k ↔ v.2.2 / d.ocMesh ∈ Set.Ico 0 d.meshCols := by
    rw [← g.ocMesh, mul_comm, mem_Ico_tiles (g.ocMesh_pos hk)]
  rw [output, Set.mem_prod, Set.mem_prod, hrow, hcol, hchan]
  simp only [places, placeOf, Set.mem_ofPred_eq]
  tauto

/-- **The output blocks partition the output.** -/
theorem partitions (g : Geometry c m d) (hk : 0 < c.k) :
    Partitions (places d) (ofmBlock d) (output c d) := by
  apply Partitions.of_index (placeOf d)
  · intro v hv
    exact (g.placeOf_mem hk v).1 hv
  · intro q hq v
    rw [g.mem_ofmBlock hk hq, g.placeOf_mem hk]
    constructor
    · rintro rfl
      exact ⟨hq, rfl⟩
    · exact fun h => h.2

theorem footprint_mem {lo t s k dl y : ℤ} (hs : 0 < s) (hd : 0 < dl) (hy : y ∈ Set.Ico lo (lo + t))
    (ha : a ∈ Set.Ico 0 k) : y * s + a * dl ∈ Set.Ico (lo * s) (lo * s + footprint t s k dl) := by
  obtain ⟨hy0, hy1⟩ := hy
  obtain ⟨ha0, ha1⟩ := ha
  have h1 : lo * s ≤ y * s := mul_le_mul_of_nonneg_right hy0 hs.le
  have h2 : y * s ≤ (lo + t - 1) * s := mul_le_mul_of_nonneg_right (by omega) hs.le
  have h3 : 0 ≤ a * dl := mul_nonneg ha0 hd.le
  have h4 : a * dl ≤ (k - 1) * dl := mul_le_mul_of_nonneg_right (by omega) hd.le
  constructor
  · linarith
  · unfold footprint
    linarith

/-- **Every read of a place is delivered to it**, in the same round. -/
theorem reads_mem (g : Geometry c m d) (hs : 0 < c.stride) {y x z b ch : ℤ} (hv : (y, x, z) ∈ ofmBlock d q)
    (ha : a ∈ Set.Ico 0 c.kh) (hb : b ∈ Set.Ico 0 c.kw) (hch : ch ∈ Set.Ico 0 d.cAlign) :
    (y * c.stride + a * c.dil, x * c.stride + b * c.dil, ch) ∈ ifmBlock c d q := by
  obtain ⟨hy, hx, -⟩ := hv
  have hrow := footprint_mem hs c.dil_pos hy ha
  have hcol := footprint_mem hs c.dil_pos hx hb
  have hrow0 : (q.p0 * d.ohMesh + q.i * d.ohT) * c.stride = q.p0 * d.meshStepH + q.i * d.tileStepH := by
    rw [g.meshStepH, g.tileStepH]
    ring
  have hcol0 : q.j * d.owT * c.stride = q.j * d.tileStepW := by
    rw [g.tileStepW]
    ring
  rw [hrow0, ← g.tileH] at hrow
  rw [hcol0, ← g.tileW] at hcol
  exact mem_ifmBlock.2 ⟨hrow, hcol, hch⟩

/-- **Every input block lies inside the padded input.** -/
theorem ifmBlock_subset (g : Geometry c m d) (hs : 0 < c.stride) (hq : q ∈ places d) :
    ifmBlock c d q ⊆ Set.Ico 0 d.hPad ×ˢ Set.Ico 0 d.wPad ×ˢ Set.Ico 0 d.cAlign := by
  obtain ⟨⟨hp0, hp⟩, -, ⟨hi0, hi⟩, ⟨hj0, hj⟩⟩ := hq
  have hstepH : 0 < d.tileStepH := g.tileStepH ▸ mul_pos g.ohT_pos hs
  have hstepW : 0 < d.tileStepW := g.tileStepW ▸ mul_pos g.owT_pos hs
  have hmesh : 0 ≤ d.meshStepH := by
    rw [g.meshStepH, ← g.hRounds]
    exact mul_nonneg (mul_nonneg (by omega) g.ohT_pos.le) hs.le
  have hlo : 0 ≤ q.p0 * d.meshStepH := mul_nonneg hp0 hmesh
  have hlo' : 0 ≤ q.i * d.tileStepH := mul_nonneg hi0 hstepH.le
  have hlow : 0 ≤ q.j * d.tileStepW := mul_nonneg hj0 hstepW.le
  -- the last mesh row and the last rounds reach furthest
  have hup : q.p0 * d.meshStepH ≤ (d.meshRows - 1) * d.meshStepH :=
    mul_le_mul_of_nonneg_right (by omega) hmesh
  have hup' : q.i * d.tileStepH ≤ (d.hRounds - 1) * d.tileStepH :=
    mul_le_mul_of_nonneg_right (by omega) hstepH.le
  have hupw : q.j * d.tileStepW ≤ (d.wRounds - 1) * d.tileStepW :=
    mul_le_mul_of_nonneg_right (by omega) hstepW.le
  have hrows := g.rows_inside
  have hcols := g.cols_inside
  have hslice := g.slice
  rintro ⟨r, s, t⟩ hv
  obtain ⟨⟨hr0, hr⟩, ⟨hs0, hs1⟩, ht⟩ := mem_ifmBlock.1 hv
  have hr' : r ∈ Set.Ico 0 d.hPad := ⟨by omega, by omega⟩
  have hs' : s ∈ Set.Ico 0 d.wPad := ⟨by omega, by omega⟩
  exact ⟨hr', hs', ht⟩

end Geometry

/-- **Conv auto-tile geometry.** Every derivation that returns ok has the sizes of its
convolution and mapping; the output blocks of all places partition the output, each place
is delivered every input its outputs read, and nothing outside the padded input is
delivered. -/
theorem derive_blocks (conv : Conv2dSpec) (m : MappingSpec) (tgt : Target) (ov : Overrides) (d : Derived)
    (hd : derive conv m tgt ov = d) (hok : d.ok = true) :
    Geometry conv m d ∧ Partitions (places d) (ofmBlock d) (output conv d) ∧
      (∀ q ∈ places d, ∀ y x z, (y, x, z) ∈ ofmBlock d q →
        ∀ a ∈ Set.Ico 0 conv.kh, ∀ b ∈ Set.Ico 0 conv.kw, ∀ ch ∈ Set.Ico 0 d.cAlign,
          (y * conv.stride + a * conv.dil, x * conv.stride + b * conv.dil, ch) ∈ ifmBlock conv d q) ∧
      ∀ q ∈ places d,
        ifmBlock conv d q ⊆ Set.Ico 0 d.hPad ×ˢ Set.Ico 0 d.wPad ×ˢ Set.Ico 0 d.cAlign := by
  subst hd
  obtain ⟨hv, g⟩ := derive_ok hok
  refine ⟨g, g.partitions hv.k_pos, ?_, ?_⟩
  · intro q _ y x z hy a ha b hb ch hch
    exact g.reads_mem hv.stride_pos hy ha hb hch
  · intro q hq
    exact g.ifmBlock_subset hv.stride_pos hq

/-- A dilated 3x3 convolution on a 2x2 mesh, two rounds in each direction. -/
def dilatedConv : Conv2dSpec :=
  { h := 10, w := 10, c := 3, k := 4, kh := 3, kw := 3, stride := 1, pad := 1, dilation := 2 }

def dilatedMapping : MappingSpec :=
  { spaceRows := { axis := .OH, factor := 2 }, spaceCols := { axis := .OC, factor := 2 }
    time := [{ axis := .OH, factor := 2 }, { axis := .OW, factor := 4 }] }

theorem dilatedConv_ok : (derive dilatedConv dilatedMapping {} {}).ok = true := by
  decide +kernel

theorem derive_blocks_dilated :
    Partitions (places (derive dilatedConv dilatedMapping {} {}))
      (ofmBlock (derive dilatedConv dilatedMapping {} {}))
      (output dilatedConv (derive dilatedConv dilatedMapping {} {})) :=
  (derive_blocks dilatedConv dilatedMapping {} {} _ rfl dilatedConv_ok).2.1

end AieHlc.Autotile
