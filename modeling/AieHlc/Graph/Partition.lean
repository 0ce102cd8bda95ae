import Mathlib.Data.List.Basic

/-!
# The placement of assigned regions

`run_partition` finds out which assigned regions cannot go to the AIE, and then asks for the layers
of all the others. A layer is asked for when one of its regions may go: a region that broke its
contract comes along when it shares its layer with one that did not.

* `checkRegion`, `Emod.failures`, `Emod.groups`, `Emod.runPartition`: the code.
* `Emod.KeepsOff`: whatever the offload does, what fails stays off the array.
* `Emod.Shares`, `keepsOff_of_not_shares`, `not_keepsOff_of_shares`: a layer with a region that
  passes and one that broke its contract is all that can go wrong.
-/

namespace AieHlc.Graph

open List

/-- The keys of `CONSTRAINTS`. -/
inductive Constraint where
  | inputLayout
  | weightLayout
  | dtype
  | quantization
  deriving DecidableEq, Repr

def Constraint.key : Constraint → String
  | .inputLayout => "input_layout"
  | .weightLayout => "weight_layout"
  | .dtype => "dtype"
  | .quantization => "quantization"

structure Region where
  name : String
  label : String
  op : String
  inputLayout : String
  weightLayout : String
  weightDtype : String
  quantization : String
  layer : Option ℕ
  deriving DecidableEq, Repr

/-- The attribute a constraint is checked on. -/
def Region.attr (r : Region) : Constraint → String
  | .inputLayout => r.inputLayout
  | .weightLayout => r.weightLayout
  | .dtype => r.weightDtype
  | .quantization => r.quantization

structure KernelContract where
  op : String
  constraints : List (Constraint × String)

def checkRegion (contract : KernelContract) (region : Region) : List String :=
  (if region.op ≠ contract.op then ["op is " ++ region.op ++ ", contract says " ++ contract.op] else []) ++
    (contract.constraints.filterMap fun (key, want) =>
      if region.attr key ≠ want then some (key.key ++ " is " ++ region.attr key ++ ", contract says " ++ want)
      else none) ++
    if region.layer = none then ["no TVM call carries this region's weights"] else []

inductive Backend where
  | cpu
  | aie (kernel : String)
  deriving DecidableEq, Repr

def Backend.text : Backend → String
  | .cpu => "cpu"
  | .aie kernel => "aie:" ++ kernel

/-- The registered kernels, and the assigned regions with their backends. -/
structure Emod where
  kernels : String → KernelContract
  requested : List (Region × Backend)

/-- Where each layer runs, as in `partition.json`. -/
abbrev Placement := ℕ → Backend

/-- `emod.offload`: the layers it is asked for, by kernel, and the placement it changes. -/
abbrev Offload := (String → List ℕ) → Placement → Placement

def resetAieRows (p : Placement) : Placement := fun l =>
  match p l with
  | .aie _ => .cpu
  | .cpu => .cpu

namespace Emod

variable (m : Emod)

/-- A group of `by_layer`. -/
def byLayer (l : ℕ) : List (Region × Backend) := m.requested.filter fun x => x.1.layer = some l

/-- The regions of a layer are assigned to more than one backend. -/
def conflict (l : ℕ) : Bool := (m.byLayer l).any fun x => (m.byLayer l).any fun y => x.2 ≠ y.2

/-- The region breaks the contract of the kernel it is assigned to. -/
def breaks : Region × Backend → Bool
  | (_, .cpu) => false
  | (r, .aie kernel) => checkRegion (m.kernels kernel) r ≠ []

def contractFailures : List (String × String) :=
  m.requested.filterMap fun x =>
    match x with
    | (_, .cpu) => none
    | (r, .aie kernel) =>
      if m.breaks x then some (r.name, "contract: " ++ "; ".intercalate
        (checkRegion (m.kernels kernel) r)) else none

/-- The other regions of a layer, in the text of a conflict. -/
def others (l : ℕ) (r : Region) : String :=
  ", ".intercalate (((m.byLayer l).filter fun x => x.1 ≠ r).map fun x => x.1.label ++ "->" ++ x.2.text)

def conflictFailures : List (String × String) :=
  ((m.requested.filterMap (·.1.layer)).eraseDups.filter m.conflict).flatMap fun l =>
    ((m.byLayer l).filter fun x => x.2 ≠ .cpu).map fun x =>
      (x.1.name, "conflict: tvm layer" ++ toString l ++ " also runs " ++ m.others l x.1 ++
        "; one kernel, one backend")

/-- `_failures`: the first entry of a name counts. -/
def failures : List (String × String) := m.contractFailures ++ m.conflictFailures

/-- The region goes to the AIE as far as the checks before the offload are concerned. -/
def passes (x : Region × Backend) : Bool := x.2 ≠ .cpu && !m.failures.any (·.1 = x.1.name)

/-- The layers that are asked for, by kernel. -/
def groups (kernel : String) : List ℕ :=
  m.requested.filterMap fun x => if x.2 = .aie kernel ∧ m.passes x then x.1.layer else none

/-- `run_partition` with fallback `"cpu"`: the placement it leaves. -/
def runPartition (offload : Offload) (earlier : Placement) : Except String Placement :=
  if m.requested = [] then .error "nothing assigned"
  else if m.requested.any m.passes then .ok (offload m.groups (resetAieRows earlier))
  else .ok (resetAieRows earlier)

end Emod

/-- The offload moves to a kernel only layers it was asked for. -/
def OnlyAsked (offload : Offload) : Prop :=
  ∀ groups p l kernel, offload groups p l = .aie kernel → p l = .aie kernel ∨ l ∈ groups kernel

namespace Emod

/-- What the placement after a partition is to be. -/
structure Sound (m : Emod) (offload : Offload) (placed : Placement) : Prop where
  failing : ∀ x ∈ m.requested, ∀ l, x.1.layer = some l → m.breaks x ∨ m.conflict l → placed l = .cpu
  asked : ∀ l kernel, placed l = .aie kernel → ∃ x ∈ m.requested, x.1.layer = some l ∧ x.2 = .aie kernel
  /-- nothing of an earlier placement shows -/
  fresh : ∀ earlier, m.runPartition offload earlier = .ok placed

def KeepsOff (m : Emod) : Prop :=
  ∀ offload, OnlyAsked offload → ∀ earlier placed, m.runPartition offload earlier = .ok placed →
    m.Sound offload placed

/-- A layer has a region that breaks its contract, and one that goes to the AIE. -/
def Shares (m : Emod) : Prop :=
  ∃ x ∈ m.requested, ∃ y ∈ m.requested, m.breaks x ∧ m.passes y ∧ x.1.layer = y.1.layer

variable {m : Emod} {x : Region × Backend} {l : ℕ}

theorem resetAieRows_eq (p : Placement) : resetAieRows p = fun _ => .cpu := by
  funext l
  unfold resetAieRows
  split <;> rfl

theorem mem_groups {kernel : String} (h : l ∈ m.groups kernel) :
    ∃ x ∈ m.requested, x.2 = .aie kernel ∧ m.passes x = true ∧ x.1.layer = some l := by
  obtain ⟨x, hx, hl⟩ := mem_filterMap.1 h
  split_ifs at hl with hpass
  exact ⟨x, hx, hpass.1, hpass.2, hl⟩

theorem not_breaks_of_passes (hx : x ∈ m.requested) (h : m.passes x = true) : m.breaks x = false := by
  obtain ⟨r, b⟩ := x
  cases b with
  | cpu => rfl
  | aie kernel =>
    by_contra hbad
    have hfail : (r.name, "contract: " ++ "; ".intercalate (checkRegion (m.kernels kernel) r)) ∈
        m.failures := by
      apply mem_append_left
      exact mem_filterMap.2 ⟨(r, .aie kernel), hx, by simpa using hbad⟩
    simp only [passes, Bool.and_eq_true, Bool.not_eq_true', any_eq_false] at h
    exact h.2 _ hfail (by simp)

/-- No region of a layer in conflict passes. -/
theorem not_conflict_of_passes (hx : x ∈ m.requested) (hl : x.1.layer = some l) (h : m.passes x = true) :
    m.conflict l = false := by
  simp only [passes, Bool.and_eq_true, Bool.not_eq_true', any_eq_false, decide_eq_true_eq] at h
  by_contra hbad
  have hgroup : x ∈ (m.byLayer l).filter fun x => x.2 ≠ .cpu := by
    simp [byLayer, hx, hl, h.1]
  have hlayer : l ∈ (m.requested.filterMap (·.1.layer)).eraseDups.filter m.conflict := by
    rw [mem_filter, mem_eraseDups]
    exact ⟨mem_filterMap.2 ⟨x, hx, hl⟩, by simpa using hbad⟩
  exact h.2 _ (mem_append_right _ (mem_flatMap.2 ⟨l, hlayer, mem_map.2 ⟨x, hgroup, rfl⟩⟩)) rfl

/-- What is on the AIE after a partition was asked for by it. -/
theorem asked_of_run {offload : Offload} (hoff : OnlyAsked offload) {earlier placed : Placement}
    {kernel : String}
    (hrun : m.runPartition offload earlier = .ok placed) (hl : placed l = .aie kernel) :
    l ∈ m.groups kernel := by
  unfold runPartition at hrun
  rw [resetAieRows_eq] at hrun
  split_ifs at hrun
  · obtain rfl := Except.ok.inj hrun
    exact (hoff _ _ _ _ hl).resolve_left nofun
  · obtain rfl := Except.ok.inj hrun
    cases hl

theorem keepsOff_of_not_shares (h : ¬m.Shares) : m.KeepsOff := by
  intro offload hoff earlier placed hrun
  refine ⟨?_, ?_, ?_⟩
  · intro x hx l hl hbad
    cases hp : placed l with
    | cpu => rfl
    | aie kernel =>
      obtain ⟨y, hy, -, hpass, hly⟩ := mem_groups (asked_of_run hoff hrun hp)
      rcases hbad with hbad | hbad
      · exact absurd ⟨x, hx, y, hy, hbad, hpass, hl.trans hly.symm⟩ h
      · simp [not_conflict_of_passes hy hly hpass] at hbad
  · intro l kernel hl
    obtain ⟨x, hx, hb, -, hlx⟩ := mem_groups (asked_of_run hoff hrun hl)
    exact ⟨x, hx, hlx, hb⟩
  · intro earlier'
    rw [← hrun]
    simp only [runPartition, resetAieRows_eq]

/-- The offload that moves all the layers it is asked for to one kernel. -/
theorem onlyAsked_moveTo (kernel : String) :
    OnlyAsked fun groups p l => if l ∈ groups kernel then .aie kernel else p l := by
  intro groups p l kernel' h
  dsimp only at h
  split_ifs at h with hl
  · obtain rfl := Backend.aie.inj h
    exact .inr hl
  · exact .inl h

/-- **A region that passes takes one that broke its contract with it.** -/
theorem not_keepsOff_of_shares (h : m.Shares) : ¬m.KeepsOff := by
  obtain ⟨x, hx, ⟨r, b⟩, hy, hbad, hpass, hlayer⟩ := h
  intro hkeeps
  have hany : m.requested.any m.passes = true := any_eq_true.2 ⟨_, hy, hpass⟩
  have hne : m.requested ≠ [] := ne_nil_of_mem hx
  cases b with
  | cpu => simp [passes] at hpass
  | aie kernel =>
    -- a region that passes is carried by a layer
    have hfits := not_breaks_of_passes hy hpass
    cases hl : r.layer with
    | none => simp [breaks, checkRegion, hl] at hfits
    | some l =>
      have hsound := hkeeps _ (onlyAsked_moveTo kernel) (fun _ => .cpu) _ (by
        rw [runPartition, if_neg hne, if_pos hany])
      have hcpu := hsound.failing x hx l (hlayer.trans hl) (.inl hbad)
      have hmem : l ∈ m.groups kernel :=
        mem_filterMap.2 ⟨_, hy, by rw [if_pos ⟨rfl, hpass⟩]; exact hl⟩
      simp [hmem] at hcpu

/-- **What fails stays off the array exactly if no layer is shared so.** -/
theorem partition_keepsOff_iff (m : Emod) : m.KeepsOff ↔ ¬m.Shares :=
  ⟨fun hkeeps h => not_keepsOff_of_shares h hkeeps, keepsOff_of_not_shares⟩

/-- A convolution of layer 0. -/
def conv (name quantization : String) : Region × Backend :=
  (⟨name, name, "conv2d", "NCHW", "OIHW", "int8", quantization, some 0⟩, .aie "conv")

/-- Two convolutions of one layer, one of them quantized as the kernel wants it. -/
def siblings : Emod where
  kernels _ := ⟨"conv2d", [(.quantization, "per_tensor")]⟩
  requested := [conv "conv1" "per_channel", conv "conv2" "per_tensor"]

theorem not_partition_keepsOff : ¬siblings.KeepsOff := by
  apply not_keepsOff_of_shares
  refine ⟨conv "conv1" "per_channel", .head _, conv "conv2" "per_tensor", .tail _ (.head _), ?_, ?_, rfl⟩
  · decide
  · decide

end Emod

end AieHlc.Graph
