import Mathlib.Tactic

/-!
# The geometry of a convolution, read back from the graph

After the build only the shapes of a layer are left. `_layer_geometry` takes the kernel's size from
the first input that looks like a weight tensor, and the stride from the ratio of the heights of
input and output. `resolve_conv_targets` takes the fingerprint of that same input for the layer's.

* `layerGeometry`, `convGeometry`, `weightParam`, `resolveConvTargets`, `checkTargets`: the code.
* `Fused`: a convolution with a layout and the other inputs of its layer; `Fused.Seen`: its stride
  is the ratio of its heights, and its weights are the first input that looks like weights.
* `max_div_eq_iff`, `Fused.geometry_recovered_iff`: exactly then it is read back as it was, and accepted.
-/

namespace AieHlc.Graph

abbrev Shape := List ℕ

/-- `_nchw`: the channels, blocked or not, the height and the width. -/
def nchw : Shape → Option (ℕ × ℕ × ℕ)
  | [_, c, h, w] => some (c, h, w)
  | [_, cOuter, h, w, cInner] => some (cOuter * cInner, h, w)
  | _ => none

/-- The keys `_GEOM_KEYS`. -/
structure Geometry where
  cin : ℕ
  cout : ℕ
  k : ℕ
  stride : ℕ
  deriving DecidableEq, Repr

structure LayerGeometry extends Geometry where
  h : ℕ
  w : ℕ
  inElems : ℕ
  outElems : ℕ
  inBlocked : Bool
  outBlocked : Bool
  needsRepack : Bool
  deriving DecidableEq, Repr

/-- The test for a weight tensor, by rank and leading dimension. -/
def weightLike (s : Shape) : Bool := s.length = 6 || (s.length = 4 && s.head? ≠ some 1)

/-- `_blocked` -/
def blocked (s : Shape) : Bool := s.length = 5 && s[1]? ≠ some 1

/-- An input of a node of the graph: the name of the node it comes from, and its shape. -/
structure Input where
  name : String
  shape : Shape
  deriving DecidableEq, Repr

/-- `_layer_geometry`, from the node's inputs and the shape of its output. -/
def layerGeometry (inputs : List Input) (rawOut : Shape) : Option LayerGeometry := do
  let rawIn ← inputs.head?.map (·.shape)
  let (cin, h, w) ← nchw rawIn
  let (cout, oh, ow) ← nchw rawOut
  let k := ((inputs.tail.find? (weightLike ·.shape)).map (·.shape.getD 2 0)).getD 0
  pure { cin, cout, k, h, w
         stride := if oh = 0 then 1 else max 1 (h / oh)
         inElems := cin * h * w
         outElems := cout * oh * ow
         inBlocked := rawIn.length = 5
         outBlocked := rawOut.length = 5
         needsRepack := blocked rawIn || blocked rawOut }

/-- `_conv_geometry`, from the weights and the strides of the Relay convolution. -/
def convGeometry (weight : Shape) (strides : List ℕ) : Geometry :=
  ⟨weight.getD 1 0, weight.getD 0 0, weight.getD 2 0, strides.getD 0 0⟩

/-- `_weight_param` -/
def weightParam (inputs : List Input) : Option String := (inputs.tail.find? (weightLike ·.shape)).map (·.name)

/-- `resolve_conv_targets`, from the layers that are eligible (index, inputs and output) and the
fingerprints of the parameters: a layer whose weights are no parameter is left out. -/
def resolveConvTargets {F : Type} (params : String → Option F) (layers : List (ℕ × List Input × Shape)) :
    List (ℕ × F × Geometry) :=
  layers.filterMap fun (layer, inputs, rawOut) => do
    let fingerprint ← (weightParam inputs).bind params
    let g ← layerGeometry inputs rawOut
    pure (layer, fingerprint, g.toGeometry)

inductive TargetError where
  | carried (layer convs : ℕ)
  | differs (layer : ℕ) (graph relay : Geometry)
  deriving DecidableEq, Repr

/-- `check_targets`: layers with fingerprint and geometry, against the Relay convolutions. -/
def checkTargets {F : Type} [DecidableEq F] (targets : List (ℕ × F × Geometry))
    (relayConvs : List (F × Geometry)) :
    List TargetError :=
  targets.filterMap fun (layer, fingerprint, t) =>
    match relayConvs.filter (·.1 = fingerprint) with
    | [hit] => if hit.2 ≠ t then some (.differs layer t hit.2) else none
    | hits => some (.carried layer hits.length)

/-- A convolution of batch 1 with square kernel and symmetric padding. -/
structure Conv2d where
  h : ℕ
  w : ℕ
  cin : ℕ
  cout : ℕ
  k : ℕ
  s : ℕ
  p : ℕ
  k_pos : 0 < k
  s_pos : 0 < s
  fits_h : k ≤ h + 2 * p
  fits_w : k ≤ w + 2 * p

/-- The output's extent along an input of `n`. -/
def Conv2d.out (v : Conv2d) (n : ℕ) : ℕ := (n + 2 * v.p - v.k) / v.s + 1

theorem Conv2d.out_pos (v : Conv2d) (n : ℕ) : 0 < v.out n := Nat.succ_pos _

/-- NCHW, or channels in blocks of `ci` and `co`. -/
inductive Layout where
  | nchw
  | nchwc (ci co : ℕ)
  deriving DecidableEq, Repr

/-- A layer: a convolution, its layout, and the fused inputs before and after its weights, which are
other nodes. -/
structure Fused where
  conv : Conv2d
  layout : Layout
  feature : String
  weights : String
  before : List Input
  after : List Input
  blocks : ∀ ci co, layout = .nchwc ci co → ci ∣ conv.cin ∧ co ∣ conv.cout
  named : ∀ i ∈ before ++ after, i.name ≠ weights

namespace Fused

variable (f : Fused)

def input : Input where
  name := f.feature
  shape := match f.layout with
    | .nchw => [1, f.conv.cin, f.conv.h, f.conv.w]
    | .nchwc ci _ => [1, f.conv.cin / ci, f.conv.h, f.conv.w, ci]

def weight : Input where
  name := f.weights
  shape := match f.layout with
    | .nchw => [f.conv.cout, f.conv.cin, f.conv.k, f.conv.k]
    | .nchwc ci co => [f.conv.cout / co, f.conv.cin / ci, f.conv.k, f.conv.k, ci, co]

def output : Shape :=
  match f.layout with
  | .nchw => [1, f.conv.cout, f.conv.out f.conv.h, f.conv.out f.conv.w]
  | .nchwc _ co => [1, f.conv.cout / co, f.conv.out f.conv.h, f.conv.out f.conv.w, co]

def inputs : List Input := f.input :: (f.before ++ f.weight :: f.after)

def recovered : Option Geometry := (layerGeometry f.inputs f.output).map (·.toGeometry)

def relay : Geometry := convGeometry [f.conv.cout, f.conv.cin, f.conv.k, f.conv.k] [f.conv.s, f.conv.s]

/-- The layer becomes a target and passes the check whenever exactly its own convolution carries its
weights. -/
def Accepted : Prop :=
  ∀ (F : Type) [DecidableEq F] (params : String → Option F) (fingerprint : F) (layer : ℕ)
    (relayConvs : List (F × Geometry)), params f.weights = some fingerprint →
    relayConvs.filter (·.1 = fingerprint) = [(fingerprint, f.relay)] →
      ∃ t, resolveConvTargets params [(layer, f.inputs, f.output)] = [t] ∧ checkTargets [t] relayConvs = []

/-- The stride can be seen in the shapes, and the weights are the first input that looks like weights. -/
structure Seen : Prop where
  stride : (f.conv.s = 1 ∨ f.conv.s * f.conv.out f.conv.h ≤ f.conv.h) ∧
    f.conv.h < (f.conv.s + 1) * f.conv.out f.conv.h
  before : ∀ i ∈ f.before, weightLike i.shape = false
  weights : f.layout = .nchw → f.conv.cout ≠ 1

end Fused

/-- The stride that is read off a ratio. -/
theorem max_div_eq_iff {h o s : ℕ} (ho : 0 < o) (hs : 0 < s) :
    max 1 (h / o) = s ↔ (s = 1 ∨ s * o ≤ h) ∧ h < (s + 1) * o := by
  have hle : s ≤ h / o ↔ s * o ≤ h := Nat.le_div_iff_mul_le ho
  have hlt : h / o < s + 1 ↔ h < (s + 1) * o := Nat.div_lt_iff_lt_mul ho
  omega

namespace Fused

variable (f : Fused)

/-- What is read back: only kernel and stride can be wrong. -/
theorem recovered_eq :
    f.recovered = some ⟨f.conv.cin, f.conv.cout,
      ((f.inputs.tail.find? (weightLike ·.shape)).map (·.shape.getD 2 0)).getD 0,
      max 1 (f.conv.h / f.conv.out f.conv.h)⟩ := by
  have hout := (f.conv.out_pos f.conv.h).ne'
  unfold recovered layerGeometry inputs input output
  cases hl : f.layout with
  | nchw => simp [nchw, hout]
  | nchwc ci co =>
    obtain ⟨hci, hco⟩ := f.blocks ci co hl
    simp [nchw, hout, Nat.div_mul_cancel hci, Nat.div_mul_cancel hco]

theorem weightLike_weight : weightLike f.weight.shape = true ↔ (f.layout = .nchw → f.conv.cout ≠ 1) := by
  unfold weight
  cases f.layout <;> simp [weightLike]

/-- The first input that looks like weights has the name of the weights only if it is the weights. -/
theorem find_weight_iff : (∃ i, f.inputs.tail.find? (weightLike ·.shape) = some i ∧ i.name = f.weights) ↔
    (∀ i ∈ f.before, weightLike i.shape = false) ∧ weightLike f.weight.shape = true := by
  have hbefore : f.before.find? (weightLike ·.shape) = none ↔ ∀ i ∈ f.before, weightLike i.shape = false := by
    simp only [List.find?_eq_none, Bool.not_eq_true]
  show (∃ i, (f.before ++ f.weight :: f.after).find? (weightLike ·.shape) = some i ∧ i.name = f.weights) ↔ _
  rw [List.find?_append, ← hbefore, List.find?_cons]
  constructor
  · rintro ⟨i, hi, hname⟩
    cases hb : f.before.find? (weightLike ·.shape) with
    | some j =>
      rw [hb] at hi
      obtain rfl : j = i := Option.some.inj hi
      exact absurd hname (f.named j (List.mem_append_left _ (List.mem_of_find?_eq_some hb)))
    | none =>
      rw [hb, Option.none_or] at hi
      refine ⟨rfl, by_contra fun hw => ?_⟩
      rw [Bool.not_eq_true] at hw
      rw [hw] at hi
      exact absurd hname (f.named i (List.mem_append_right _ (List.mem_of_find?_eq_some hi)))
  · rintro ⟨hb, hw⟩
    rw [hb, hw]
    exact ⟨f.weight, rfl, rfl⟩

theorem weight_kernel : f.weight.shape.getD 2 0 = f.conv.k := by
  unfold weight
  cases f.layout <;> rfl

/-- The weights of an accepted layer are the first input that looks like weights. -/
theorem Accepted.finds (h : f.Accepted) :
    ∃ i, f.inputs.tail.find? (weightLike ·.shape) = some i ∧ i.name = f.weights := by
  -- only the weights are a parameter
  obtain ⟨t, ht, -⟩ := h Unit (fun n => if n = f.weights then some () else none) () 0
    [((), f.relay)] (if_pos rfl) (by simp)
  unfold resolveConvTargets weightParam at ht
  cases hfind : f.inputs.tail.find? (weightLike ·.shape) with
  | none => simp [hfind] at ht
  | some i =>
    refine ⟨i, rfl, by_contra fun hne => ?_⟩
    simp [hfind, hne] at ht

/-- **A convolution is read back, and its layer accepted, exactly if stride and weights can be seen.** -/
theorem geometry_recovered_iff : (f.recovered = some f.relay ∧ f.Accepted) ↔ f.Seen := by
  have hrelay : f.relay = ⟨f.conv.cin, f.conv.cout, f.conv.k, f.conv.s⟩ := rfl
  have hstride := max_div_eq_iff (h := f.conv.h) (f.conv.out_pos f.conv.h) f.conv.s_pos
  constructor
  · rintro ⟨hrec, hacc⟩
    obtain ⟨hbefore, hweight⟩ := f.find_weight_iff.1 (hacc.finds f)
    rw [recovered_eq, hrelay, Option.some.injEq, Geometry.mk.injEq] at hrec
    exact ⟨hstride.1 hrec.2.2.2, hbefore, f.weightLike_weight.1 hweight⟩
  · intro h
    have hfind : f.inputs.tail.find? (weightLike ·.shape) = some f.weight := by
      show (f.before ++ f.weight :: f.after).find? _ = _
      rw [List.find?_append, List.find?_eq_none.2 fun i hi =>
        by simp [h.before i hi], Option.none_or, List.find?_cons,
        f.weightLike_weight.2 h.weights]
    have hrec : f.recovered = some f.relay := by
      rw [recovered_eq, hfind, Option.map_some, Option.getD_some, weight_kernel, hstride.2 h.stride, hrelay]
    refine ⟨hrec, fun F _ params fingerprint layer relayConvs hp hhits =>
      ⟨(layer, fingerprint, f.relay), ?_, ?_⟩⟩
    · obtain ⟨g, hg, hgeo⟩ := Option.map_eq_some_iff.1 hrec
      simp [resolveConvTargets, weightParam, hfind, hg, hgeo, weight, hp]
    · simp [checkTargets, hhits]

/-- A kernel as large as its input. -/
def whole : Fused where
  conv := ⟨2, 2, 3, 8, 2, 1, 0, by decide, by decide, by decide, by decide⟩
  layout := .nchw
  feature := "data"
  weights := "w"
  before := []
  after := []
  blocks := nofun
  named := nofun

/-- The output has height 1, and the stride is taken for 2. -/
theorem not_geometry_recovered : ¬(whole.recovered = some whole.relay ∧ whole.Accepted) := by
  rintro ⟨h, -⟩
  exact absurd h (by decide)

end Fused

end AieHlc.Graph
