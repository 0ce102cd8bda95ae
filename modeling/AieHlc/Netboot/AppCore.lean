import AieHlc.Netboot.Supervisor

/-!
# The app core beside the supervisor

The app core runs what was placed for it, enters the park routine (`park.S`) when it likes, waits
there until the sequence number of the mailbox changes and goes on at the entry point it finds.
Stops and wakes go through the platform manager, which carries them out or refuses them, as the
policy of the boot image allows.

* `Core`, `World`, `CoreStep`: the core, the mailbox, the steps of the core.
* `Policy`, `surroundings`: what the platform manager may do; `mainLoop`: the supervisor beside the core.
* `Setting`, `heeded`: the runs in which a stop that can be undone finds no mark in the mailbox.
* `Holds`: what a part of the supervisor does in such runs from a state on, whatever the core does
  in between, with its rules.
-/

namespace AieHlc.Netboot

open AieHlc.Prog

inductive Core where
  | off
  /-- held in reset, with the address it will start at -/
  | held (how : StopHow) (entry : ℕ)
  /-- executes an app -/
  | running (entry : ℕ)
  /-- in the park routine, with the sequence number it has read, and not yet marked as parked -/
  | entering (saw : ℕ)
  /-- in the loop of the park routine -/
  | waiting (saw : ℕ)
  deriving DecidableEq, Repr

/-- The core and the mailbox. -/
structure World where
  core : Core := .off
  parked : Bool := false
  rc : ℤ := 0
  seq : ℕ := 0
  entry : ℕ := 0
  deriving DecidableEq, Repr

/-- `nb_park`, between any two steps of the app. -/
inductive CoreStep : World → World → Prop
  | enter {w : World} {a : ℕ} : w.core = .running a → CoreStep w { w with core := .entering w.seq }
  | exitStatus {w : World} {saw : ℕ} (rc : ℤ) : w.core = .entering saw → CoreStep w { w with rc := rc }
  | park {w : World} {saw : ℕ} : w.core = .entering saw →
    CoreStep w { w with core := .waiting saw, parked := true }
  | leave {w : World} {saw : ℕ} : w.core = .waiting saw → w.seq ≠ saw →
    CoreStep w { w with core := .running w.entry }

/-- What the platform manager carries out. -/
structure Policy where
  ready : Bool
  wake : Bool
  stop : StopHow → Bool
  release : StopHow → Bool

def Core.stopped (how : StopHow) (c : Core) : Core :=
  match how with
  | .none => c
  | .power => .off
  | how => .held how 0

/-- The core after a wake; one that is held in reset only takes the address. -/
def Core.woken (entry : ℕ) : Core → Core
  | .off => .running entry
  | .held how _ => .held how entry
  | c => c

def Core.released (how : StopHow) : Core → Core
  | .held how' entry => if how' = how then .running entry else .held how' entry
  | c => c

/-- What a request does to core and mailbox: a stop, wake or release takes effect, or fails and does
nothing. -/
def act (P : Policy) (q : Req) (w : World) (b : Ans q) (w' : World) : Prop :=
  match q, b with
  | .parked, b => b = w.parked ∧ w' = w
  | .exitRc, b => b = w.rc ∧ w' = w
  | .clearParked, _ => w' = { w with parked := false }
  | .setEntry entry, _ => w' = { w with entry := entry }
  | .bumpSeq, _ => w' = { w with seq := (w.seq + 1) % 2 ^ 32 }
  | .stop how, b => (b = true ∧ P.stop how = true ∧ w' = { w with core := w.core.stopped how }) ∨
    (b = false ∧ w' = w)
  | .wake entry, b => (b = true ∧ P.wake = true ∧ w' = { w with core := w.core.woken entry }) ∨
    (b = false ∧ w' = w)
  | .release how, b =>
    (b = true ∧ P.release how = true ∧ w' = { w with core := w.core.released how }) ∨ (b = false ∧ w' = w)
  | .now, _ => w' = w
  | .digest _, _ => w' = w
  | .place _, _ => w' = w
  | .stage _ _, _ => w' = w

def World.Executes (w : World) : Prop := ∃ a, w.core = .running a

/-- The core executes no app: it is off, held in reset, or in the loop of the park routine. -/
def Core.atRest : Core → Bool
  | .off => true
  | .held _ _ => true
  | .waiting _ => true
  | _ => false

/-- The core is in the loop of the park routine. -/
def World.InParkLoop (w : World) : Prop := ∃ saw, w.core = .waiting saw

/-- A core that is said to be parked is in the park loop; app memory and the sequence number are
written only while no app executes. -/
def allowed (q : Req) (w : World) (b : Ans q) : Prop :=
  match q, b with
  | .parked, b => b = true → w.InParkLoop
  | .place _, _ => ¬w.Executes
  | .bumpSeq, _ => ¬w.Executes
  | _, _ => True

def surroundings (P : Policy) : Surroundings World Req Ans := ⟨CoreStep, act P, allowed⟩

/-- The supervisor beside the app core. -/
def mainLoop (P : Policy) : Reactive Sup World Event Req Ans := ⟨surroundings P, supervise⟩

/-- A core that is stopped so can be started again. -/
def Policy.Undoes (P : Policy) (how : StopHow) : Prop := how = .power ∨ how ≠ .none ∧ P.release how = true

/-- A policy, and whether its last attempt to stop the core is `firm`: carried out whenever it is made. -/
structure Setting extends Policy where
  firm : Prop

variable (P : Setting)

/-- A stop that can be undone is carried out only while the mailbox has no mark; a firm stop is not
refused. -/
def Setting.Heeds (q : Req) (w : World) (b : Ans q) : Prop :=
  match q, b with
  | .stop how, b => (b = true → P.ready = true → P.wake = true → P.Undoes how → w.parked = false) ∧
    (how = .cold → P.firm → b = true)
  | _, _ => True

/-- The surroundings, where every stop heeds the setting. -/
def heeded : Surroundings World Req Ans :=
  ⟨CoreStep, fun q w b w' => act P.toPolicy q w b w' ∧ P.Heeds q w b, allowed⟩

/-- The runs of the main loop whose stops all heed the setting. -/
def heededLoop : Reactive Sup World Event Req Ans := ⟨heeded P, supervise⟩

def IsLaunch (cmd : ℕ) : Prop := cmd = NETBOOT_CMD_LOAD_RUN ∨ cmd = NETBOOT_CMD_RERUN

instance (cmd : ℕ) : Decidable (IsLaunch cmd) := inferInstanceAs (Decidable (_ ∨ _))

/-- A run that was admitted is not refused because the core is busy. -/
def KeepsWord (s : Sup) : Prop := ∀ cmd r, Sent.rep cmd true r ∈ s.sent → IsLaunch cmd → r.rc ≠ -5

/-! ## Parts of the supervisor -/

/-- From variables `s` and world `w` the part makes only allowed requests and ends with `R`. -/
def Holds {α : Type} (c : SupM α) (R : α → Sup → World → Prop) (s : Sup) (w : World) : Prop :=
  (c s).wp (heeded P) (fun r w => R r.1 r.2 w) w

section Rules

variable {α β : Type} {P : Setting} {s : Sup} {w : World} {R R' : α → Sup → World → Prop} {c : SupM α}

theorem holds_pure {a : α} (h : R a s w) : Holds P (pure a) R s w := h

theorem holds_mono (h : Holds P c R s w) (hR : ∀ a s w, R a s w → R' a s w) : Holds P c R' s w :=
  Code.meets_mono h hR

theorem holds_bind {f : α → SupM β} {R : β → Sup → World → Prop}
    (h : Holds P c (fun a s w => Holds P (f a) R s w) s w) : Holds P (c >>= f) R s w :=
  Code.meets_bind h

theorem holds_seq {f : α → SupM β} {R' : β → Sup → World → Prop} (h : Holds P c R s w)
    (hf : ∀ a s w, R a s w → Holds P (f a) R' s w) : Holds P (c >>= f) R' s w :=
  holds_bind (holds_mono h hf)

theorem holds_get {f : Sup → SupM α} (h : Holds P (f s) R s w) : Holds P (get >>= f) R s w := h

theorem holds_modify {g : Sup → Sup} {R : PUnit → Sup → World → Prop} (h : R ⟨⟩ (g s) w) :
    Holds P (modify g) R s w := h

theorem holds_set {s' : Sup} {R : PUnit → Sup → World → Prop} (h : R ⟨⟩ s' w) : Holds P (set s') R s w := h

/-- A condition that the steps of the core keep. -/
def Stable (K : World → Prop) : Prop := ∀ w w', K w → CoreStep w w' → K w'

variable {K : World → Prop}

theorem Stable.star (hK : Stable K) {w w' : World} (h : K w)
    (hstar : Relation.ReflTransGen CoreStep w w') : K w' := by
  induction hstar with
  | refl => exact h
  | tail _ hstep ih => exact hK _ _ ih hstep

/-- A request, made under a condition that the core keeps. -/
theorem holds_ask {q : Req} {R : Ans q → Sup → World → Prop} (hK : Stable K) (hw : K w)
    (h : ∀ w, K w → ∀ b w', act P.toPolicy q w b w' → allowed q w b ∧ R b s w') :
    Holds P (askFor q) R s w := by
  intro w' hstar b w'' hact
  exact h w' (hK.star hw hstar) b w'' hact.1

/-- A stop is carried out where the setting lets it be, or refused. -/
theorem holds_stop {how : StopHow} {R : Bool → Sup → World → Prop} (hK : Stable K) (hw : K w)
    (hyes : ∀ w, K w → P.stop how = true →
      (P.ready = true → P.wake = true → P.Undoes how → w.parked = false) →
      R true s { w with core := w.core.stopped how })
    (hno : ∀ w, K w → (how = .cold → ¬P.firm) → R false s w) : Holds P (askFor (.stop how)) R s w := by
  intro w' hstar b w'' hact
  have hw' := hK.star hw hstar
  refine ⟨trivial, ?_⟩
  obtain ⟨⟨rfl, hstop, rfl⟩ | ⟨rfl, rfl⟩, hmark, hfirm⟩ := hact
  · exact hyes w' hw' hstop (hmark rfl)
  · refine hno _ hw' fun hc hf => ?_
    cases hfirm hc hf

theorem holds_ite {q : Prop} [Decidable q] {c c' : SupM α} (h : q → Holds P c R s w)
    (h' : ¬q → Holds P c' R s w) :
    Holds P (if q then c else c') R s w :=
  Code.meets_ite h h'

end Rules

end AieHlc.Netboot
