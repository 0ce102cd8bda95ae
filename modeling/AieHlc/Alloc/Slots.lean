import Mathlib.Data.List.Nodup

/-!
# First free slot

An allocator that walks a list of slots and takes the first that is free. The free positions in
order are all that matters: one request takes the first of them and leaves the others.

* `positions`: the positions of the elements with a property, in order.
* `findIdx?_eq_head?`: the walk finds the first.
* `positions_modify_head`: taking it leaves the others.
-/

namespace AieHlc.Alloc

open List

variable {α : Type*} {p : α → Bool} {l : List α} {i : ℕ}

/-- The positions of the elements that have `p`. -/
def positions (p : α → Bool) (l : List α) : List ℕ := (List.range l.length).filter fun i => l[i]?.any p

theorem mem_positions : i ∈ positions p l ↔ ∃ a, l[i]? = some a ∧ p a = true := by
  simp only [positions, mem_filter, mem_range, Option.any_eq_true]
  constructor
  · exact And.right
  · intro ⟨a, ha, hp⟩
    exact ⟨(List.getElem?_eq_some_iff.1 ha).1, a, ha, hp⟩

theorem nodup_positions (p : α → Bool) (l : List α) : (positions p l).Nodup := nodup_range.filter _

theorem positions_cons (a : α) (l : List α) :
    positions p (a :: l) = (if p a then [0] else []) ++ (positions p l).map Nat.succ := by
  rw [positions, positions, length_cons, range_succ_eq_map, filter_cons, filter_map]
  by_cases ha : p a = true
  · simp [ha, Function.comp_def]
  · simp [ha, Function.comp_def]

theorem findIdx?_eq_head? (p : α → Bool) (l : List α) : l.findIdx? p = (positions p l).head? := by
  induction l with
  | nil => rfl
  | cons a l ih =>
    rw [findIdx?_cons, positions_cons, ih]
    by_cases ha : p a = true
    · simp [ha]
    · simp [ha, head?_map]

theorem positions_modify {f : α → α} (hf : ∀ a, p (f a) = false) (l : List α) (i : ℕ) :
    positions p (l.modify i f) = (positions p l).filter fun j => j ≠ i := by
  rw [positions, positions, filter_filter, length_modify]
  apply filter_congr
  intro j _
  rw [getElem?_modify]
  by_cases hij : i = j
  · subst hij
    cases l[i]? <;> simp [hf]
  · cases l[j]? <;> simp [hij, Ne.symm hij]

/-- **One request**: the first position is taken, the others stay. -/
theorem positions_modify_head {f : α → α} (hf : ∀ a, p (f a) = false) {rest : List ℕ}
    (h : positions p l = i :: rest) : positions p (l.modify i f) = rest := by
  have hnodup := nodup_positions p l
  rw [h] at hnodup
  rw [positions_modify hf, h, filter_cons_of_neg (by simp)]
  apply filter_eq_self.2
  intro j hj
  have hne : j ≠ i := fun heq => (nodup_cons.1 hnodup).1 (heq ▸ hj)
  exact decide_eq_true hne

end AieHlc.Alloc
