import Mathlib.Logic.Function.Basic

/-!
# Memories and lists of writes

A memory is a function from addresses to contents; a list of writes is carried out from
left to right. What a list leaves at an address is its last write there.

* `run`: a list of writes, carried out.
* `lastTo`: the value of the last write to an address.
* `run_apply`: the contents after a list of writes.
* `run_eq_iff`: when two lists leave the same, from every memory of a class.
-/

namespace AieHlc.Memory

open Option Function List

variable {α β : Type} [DecidableEq α]

def run : List (α × β) → (α → β) → α → β
  | [], m => m
  | w :: ws, m => run ws (update m w.1 w.2)

/-- The value of the last write to `a`. -/
def lastTo (a : α) : List (α × β) → Option β
  | [] => none
  | w :: ws => (lastTo a ws).or (if w.1 = a then some w.2 else none)

theorem run_append (u v : List (α × β)) (m : α → β) : run (u ++ v) m = run v (run u m) := by
  induction u generalizing m with
  | nil => rfl
  | cons w u ih => exact ih _

/-- **What a list of writes leaves at an address.** -/
theorem run_apply (ws : List (α × β)) (m : α → β) (a : α) : run ws m a = (lastTo a ws).getD (m a) := by
  induction ws generalizing m with
  | nil => rfl
  | cons w ws ih =>
    rw [run, ih, lastTo]
    cases lastTo a ws with
    | some v => rfl
    | none =>
      by_cases h : w.1 = a
      · rw [if_pos h, ← h]
        exact update_self ..
      · rw [if_neg h]
        exact update_of_ne (Ne.symm h) ..

theorem lastTo_append (a : α) (u v : List (α × β)) : lastTo a (u ++ v) = (lastTo a v).or (lastTo a u) := by
  induction u with
  | nil => exact or_none.symm
  | cons w u ih => rw [cons_append, lastTo, ih, Option.or_assoc, ← lastTo]

theorem lastTo_concat (a : α) (u : List (α × β)) (v : β) : lastTo a (u ++ [(a, v)]) = some v := by
  rw [lastTo_append, lastTo, if_pos rfl]
  rfl

variable {ws : List (α × β)}

theorem lastTo_eq_none {a : α} : lastTo a ws = none ↔ ∀ w ∈ ws, w.1 ≠ a := by
  induction ws with
  | nil => exact iff_of_true rfl nofun
  | cons w ws ih =>
    rw [lastTo, or_eq_none_iff, ih, forall_mem_cons, and_comm, ite_eq_right_iff]
    simp

theorem lastTo_filter {a : α} {p : α × β → Bool} (h : ∀ w ∈ ws, w.1 = a → p w = true) :
    lastTo a (ws.filter p) = lastTo a ws := by
  induction ws with
  | nil => rfl
  | cons w ws ih =>
    have hrest := ih fun x hx => h x (mem_cons_of_mem _ hx)
    by_cases hp : p w = true
    · rw [filter_cons_of_pos hp, lastTo, lastTo, hrest]
    · have hne : w.1 ≠ a := fun ha => hp (h w mem_cons_self ha)
      rw [filter_cons_of_neg hp, lastTo, hrest, if_neg hne, or_none]

theorem lastTo_of_all {a : α} {v : β} (h : ∀ w ∈ ws, w.1 = a → w.2 = v)
    (hex : ∃ w ∈ ws, w.1 = a) : lastTo a ws = some v := by
  induction ws with
  | nil =>
    obtain ⟨w, hw, _⟩ := hex
    exact absurd hw not_mem_nil
  | cons w ws ih =>
    rw [lastTo]
    by_cases hrest : ∃ w ∈ ws, w.1 = a
    · rw [ih (fun x hx => h x (mem_cons_of_mem _ hx)) hrest]
      rfl
    · obtain ⟨x, hx, hxa⟩ := hex
      rcases mem_cons.1 hx with rfl | hx
      · rw [lastTo_eq_none.2 fun y hy hya => hrest ⟨y, hy, hya⟩, if_pos hxa, h x mem_cons_self hxa]
        rfl
      · exact absurd ⟨x, hx, hxa⟩ hrest

theorem run_rewrite {a : α} {v : β} (h : lastTo a ws = some v) (m : α → β) :
    run (ws ++ [(a, v)]) m = run ws m := by
  rw [run_append]
  have hv : run ws m a = v := by rw [run_apply, h]; rfl
  rw [← hv]
  exact update_eq_self a (run ws m)

/-- A last write changes nothing, whatever the memory, only if it writes what is there. -/
theorem lastTo_of_rewrite {a : α} {v x : β} (hx : x ≠ v)
    (h : ∀ m, run (ws ++ [(a, v)]) m = run ws m) : lastTo a ws = some v := by
  have hv := congrFun (h fun _ => x) a
  rw [run_apply, run_apply, lastTo_concat] at hv
  cases hlast : lastTo a ws with
  | none =>
    rw [hlast] at hv
    exact absurd hv.symm hx
  | some y =>
    rw [hlast] at hv
    exact congrArg some hv.symm

/-- **When a part of the writes is enough.** From every memory that holds the result of
all writes `ws` wherever `P` holds, the writes `vs` among them lead to the same memory,
exactly when at every address either the last writes agree, or `P` holds and `vs` does
not write there. -/
theorem run_eq_iff [Nontrivial β] {P : α → Prop} {vs ws : List (α × β)} (hsub : ∀ w ∈ vs, w ∈ ws) :
    (∀ m : α → β, (∀ a, P a → m a = run ws m a) → run vs m = run ws m) ↔
      ∀ a, lastTo a vs = lastTo a ws ∨ P a ∧ lastTo a vs = none := by
  constructor
  · intro h a
    obtain ⟨x, _⟩ := exists_pair_ne β
    -- the memory after `ws` is kept by `ws`
    have hfix : ∀ b, run ws (run ws fun _ => x) b = run ws (fun _ => x) b := by
      intro b
      rw [run_apply, run_apply]
      cases lastTo b ws <;> rfl
    have hsame := congrFun (h (run ws fun _ => x) fun b _ => (hfix b).symm) a
    rw [hfix, run_apply vs] at hsame
    cases hvs : lastTo a vs with
    | some v =>
      left
      have hws : lastTo a ws ≠ none := by
        intro hnone
        have hno := lastTo_eq_none.1 hnone
        have hvs' : lastTo a vs = none := lastTo_eq_none.2 fun w hw => hno w (hsub w hw)
        rw [hvs'] at hvs
        exact nomatch hvs
      obtain ⟨u, hu⟩ := ne_none_iff_exists'.1 hws
      rw [hvs, run_apply, hu] at hsame
      rw [hu]
      exact congrArg some hsame
    | none =>
      by_cases hP : P a
      · exact .inr ⟨hP, rfl⟩
      · left
        cases hws : lastTo a ws with
        | none => rfl
        | some u =>
          -- a memory with another value at `a`, where nothing is required of it
          exfalso
          obtain ⟨z, hz⟩ := exists_ne u
          have hm : ∀ b, P b → update (run ws fun _ => x) a z b =
              run ws (update (run ws fun _ => x) a z) b := by
            intro b hb
            have hne : b ≠ a := fun heq => hP (heq ▸ hb)
            rw [run_apply, update_of_ne hne, run_apply]
            cases lastTo b ws <;> rfl
          have hbad := congrFun (h _ hm) a
          rw [run_apply, run_apply, hvs, hws, getD_none, getD_some, update_self] at hbad
          exact hz hbad
  · intro h m hm
    funext a
    rw [run_apply vs]
    rcases h a with heq | ⟨hP, hnone⟩
    · rw [heq, run_apply]
    · rw [hnone]
      exact hm a hP

end AieHlc.Memory
