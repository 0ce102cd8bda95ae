import Mathlib.Data.Nat.Basic
import Mathlib.Tactic.Common

/-!
# Programs that log what they do

A program works on a state and logs its actions. Whether all of them are allowed may depend on what
the program reads from the state, and what it reads may depend on what it did before. `Exact` says,
once and for all states of a class, when a program stays within what is allowed, what it returns
then and how it ends. It composes along `>>=` and loops, so that the condition of a whole program is
read off from those of its parts.

* `Logged`: programs with a state and a log.
* `Exact`: the exact condition under which only allowed actions are logged.
* `Exact.bind`, `Exact.stuck`, `Exact.findSomeM?`, `Exact.foldlM`: the rules.
* `Visits`: which rounds a loop that may stop early comes to.
-/

namespace AieHlc.Prog

open List

variable {σ ω α β ι : Type}

/-- A program: from a state to a result, a state and the actions in between. -/
def Logged (σ ω α : Type) : Type := σ → α × σ × List ω

variable {body : ι → Logged σ ω (Option β)}

namespace Logged

variable (m : Logged σ ω α)

def val (s : σ) : α := (m s).1

def state (s : σ) : σ := (m s).2.1

def log (s : σ) : List ω := (m s).2.2

instance : Monad (Logged σ ω) where
  pure a := fun s => (a, s, [])
  bind m f := fun s =>
    match m s with
    | (a, s', l) =>
      match f a s' with
      | (b, s'', l') => (b, s'', l ++ l')

@[simp]
theorem val_pure (a : α) (s : σ) : (pure a : Logged σ ω α).val s = a := rfl

@[simp]
theorem state_pure (a : α) (s : σ) : (pure a : Logged σ ω α).state s = s := rfl

@[simp]
theorem log_pure (a : α) (s : σ) : (pure a : Logged σ ω α).log s = [] := rfl

variable (m : Logged σ ω α) (f : α → Logged σ ω β) (s : σ)

@[simp]
theorem val_bind : (m >>= f).val s = (f (m.val s)).val (m.state s) := rfl

@[simp]
theorem state_bind : (m >>= f).state s = (f (m.val s)).state (m.state s) := rfl

@[simp]
theorem log_bind : (m >>= f).log s = m.log s ++ (f (m.val s)).log (m.state s) := rfl

/-- Whatever the state, the program logs only actions with `P`. -/
def Logs (P : ω → Prop) (m : Logged σ ω α) : Prop := ∀ s, ∀ w ∈ m.log s, P w

variable {P : ω → Prop} {m f}

theorem Logs.pure (a : α) : Logs P (Pure.pure a : Logged σ ω α) := fun _ _ hw => by cases hw

theorem Logs.bind (hm : Logs P m) (hf : ∀ a, Logs P (f a)) : Logs P (m >>= f) := by
  intro s w hw
  rw [log_bind] at hw
  rcases mem_append.1 hw with hw | hw
  · exact hm s w hw
  · exact hf _ _ w hw

theorem Logs.findSomeM? (h : ∀ i, Logs P (body i)) :
    ∀ l : List ι, Logs P (l.findSomeM? body) := by
  intro l
  induction l with
  | nil => exact Logs.pure none
  | cons i l ih =>
    rw [findSomeM?_cons]
    apply (h i).bind
    intro r
    cases r with
    | some b => exact Logs.pure (some b)
    | none => exact ih

end Logged

/-- From every state with `R`, the program logs only actions with `P` exactly when `C` holds, and
then it returns `a` and ends with `Q`. -/
structure Exact (P : ω → Prop) (R : σ → Prop) (m : Logged σ ω α) (C : Prop) (a : α)
    (Q : σ → Prop) : Prop where
  allowed : ∀ s, R s → ((∀ w ∈ m.log s, P w) ↔ C)
  val : ∀ s, R s → C → m.val s = a
  state : ∀ s, R s → C → Q (m.state s)

namespace Exact

variable {P : ω → Prop} {R Q Q' : σ → Prop} {m : Logged σ ω α} {f : α → Logged σ ω β}
    {C C' D : Prop} {a : α} {b : β}

theorem pure (a : α) (h : ∀ s, R s → Q s) : Exact P R (Pure.pure a : Logged σ ω α) True a Q where
  allowed s _ := by simp
  val s _ _ := rfl
  state s hs _ := h s hs

/-- The second program only matters where the first one did what it may. -/
theorem bind (hm : Exact P R m C a Q) (hf : C → Exact P Q (f a) D b Q') :
    Exact P R (m >>= f) (C ∧ D) b Q' where
  allowed s hs := by
    rw [Logged.log_bind, forall_mem_append, hm.allowed s hs]
    apply and_congr_right
    intro hC
    rw [hm.val s hs hC]
    exact (hf hC).allowed _ (hm.state s hs hC)
  val s hs h := by
    rw [Logged.val_bind, hm.val s hs h.1]
    exact (hf h.1).val _ (hm.state s hs h.1) h.2
  state s hs h := by
    rw [Logged.state_bind, hm.val s hs h.1]
    exact (hf h.1).state _ (hm.state s hs h.1) h.2

theorem congr (h : Exact P R m C a Q) (hC : C ↔ C') : Exact P R m C' a Q where
  allowed s hs := (h.allowed s hs).trans hC
  val s hs hc := h.val s hs (hC.2 hc)
  state s hs hc := h.state s hs (hC.2 hc)

/-- After a program that always stays within. -/
theorem next (hm : Exact P R m True a Q) (hf : Exact P Q (f a) D b Q') : Exact P R (m >>= f) D b Q' :=
  (hm.bind fun _ => hf).congr (iff_of_eq (true_and D))

/-- A program that starts with what it may not do. -/
theorem stuck {T : σ → Prop} (hm : Exact P R m C a Q) (hC : ¬C) (b : β) : Exact P R (m >>= f) False b T :=
  (hm.bind (D := True) fun h => absurd h hC).congr (iff_of_false (fun h => hC h.1) id)

theorem bind_pure (hm : Exact P R m C a Q) (g : α → β) :
    Exact P R (m >>= fun x => Pure.pure (g x)) C (g a) Q := by
  have hg : Exact P Q (Pure.pure (g a) : Logged σ ω β) True (g a) Q := pure _ fun _ hs => hs
  have hbind : Exact P R (m >>= fun x => Pure.pure (g x)) (C ∧ True) (g a) Q := hm.bind fun _ => hg
  exact hbind.congr (iff_of_eq (and_true C))

theorem post (h : Exact P R m C a Q) (hQ : C → ∀ s, Q s → Q' s) : Exact P R m C a Q' where
  allowed := h.allowed
  val := h.val
  state s hs hc := hQ hc _ (h.state s hs hc)

end Exact

/-! ## Loops -/

/-- The rounds of a loop up to the first with a result have `C`. -/
def Visits (C : ι → Prop) (v : ι → Option β) : List ι → Prop
  | [] => True
  | i :: l => C i ∧ (v i = none → Visits C v l)

theorem visits_range' {C : ℕ → Prop} {v : ℕ → Option β} {k n : ℕ} : Visits C v (List.range' k n) ↔
    ∀ i, k ≤ i → i < k + n → (∀ j, k ≤ j → j < i → v j = none) → C i := by
  induction n generalizing k with
  | zero => exact iff_of_true trivial fun i h h' => by omega
  | succ n ih =>
    rw [range'_succ, Visits, ih]
    constructor
    · rintro ⟨hk, hrest⟩ i hki hi hnone
      rcases Nat.eq_or_lt_of_le hki with rfl | hlt
      · exact hk
      · apply hrest (hnone k le_rfl hlt) i hlt (by omega)
        intro j hj hji
        exact hnone j (by omega) hji
    · intro h
      refine ⟨h k le_rfl (by omega) fun j hj hjk => by omega, ?_⟩
      intro hk i hki hi hnone
      apply h i (by omega) (by omega)
      intro j hj hji
      rcases Nat.eq_or_lt_of_le hj with rfl | hlt
      · exact hk
      · exact hnone j hlt hji

/-- The rounds of a counting loop that it comes to. -/
theorem visits_range {C : ℕ → Prop} {v : ℕ → Option β} {n : ℕ} :
    Visits C v (List.range n) ↔ ∀ i < n, (∀ j < i, v j = none) → C i := by
  rw [range_eq_range', visits_range']
  constructor
  · intro h i hi hnone
    exact h i (Nat.zero_le i) (by omega) fun j _ hj => hnone j hj
  · intro h i _ hi hnone
    exact h i (by omega) fun j hj => hnone j (Nat.zero_le j) hj

namespace Exact

variable {P : ω → Prop} {R : σ → Prop}

/-- A loop that stops at the first round with a result. Rounds without one keep `R`, a round with
one ends with `Q`. -/
theorem findSomeM? {C : ι → Prop} {v : ι → Option β} {Q : σ → Prop} {l : List ι}
    (h : ∀ i ∈ l, Exact P R (body i) (C i) (v i) fun s => if v i = none then R s else Q s) :
    Exact P R (l.findSomeM? body) (Visits C v l) (l.findSome? v)
      fun s => if l.findSome? v = none then R s else Q s := by
  induction l with
  | nil => exact pure none fun _ hs => hs
  | cons i l ih =>
    have hi := h i mem_cons_self
    have hl := ih fun j hj => h j (mem_cons_of_mem i hj)
    rw [findSomeM?_cons, findSome?_cons, Visits]
    let rest : Option β → Logged σ ω (Option β) := fun r =>
      match r with
      | some b => Pure.pure (some b)
      | none => l.findSomeM? body
    change Exact P R (body i >>= rest) _ _ _
    cases hv : v i with
    | some b =>
      simp only [hv, reduceCtorEq, if_false] at hi ⊢
      have hrest : Exact P Q (rest (some b)) True (some b) Q := pure _ fun _ hs => hs
      exact (hi.bind fun _ => hrest).congr (by simp)
    | none =>
      simp only [hv, if_true] at hi
      have hrest : Exact P R (rest none) _ _ _ := hl
      exact (hi.bind fun _ => hrest).congr (by simp)

theorem foldlM {f : β → ι → Logged σ ω β} {g : β → ι → β} {C : ι → Prop} {l : List ι}
    (h : ∀ i ∈ l, ∀ b, Exact P R (f b i) (C i) (g b i) R) (b : β) :
    Exact P R (l.foldlM f b) (∀ i ∈ l, C i) (l.foldl g b) R := by
  induction l generalizing b with
  | nil => exact (pure b fun _ hs => hs).congr (by simp)
  | cons i l ih =>
    rw [foldlM_cons, foldl_cons]
    refine ((h i mem_cons_self b).bind fun _ => ih (fun j hj => h j (mem_cons_of_mem i hj)) _).congr ?_
    simp

end Exact

end AieHlc.Prog
