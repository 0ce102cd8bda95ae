import AieHlc.Netboot.Admission

/-!
# When the supervisor never places on a running core

The invariant of the main loop holds where the platform manager does not let the supervisor stop a
core and start it again. Where it does, an app that has parked and is then stopped leaves its mark
in the mailbox, and the next app is taken for parked as soon as it runs.

* `CoreSafe`: no run places on a running core, takes one for parked, or refuses a launch it has admitted.
* `Restartable`: the core can be stopped and started again.
* `core_safe_iff`: safety is the absence of that, and which runs are safe where it is present.
* `Choice`, `play`: runs that are written down, for the other direction.
-/

namespace AieHlc.Netboot

open AieHlc.Prog

abbrev Config := Ask Req Ans Sup × World

variable {w w' : World} {c c' : Config}

/-- In every run, requests are only made when they may be, and admitted launches are not refused. -/
def CoreSafe (P : Policy) : Prop :=
  ∀ c, (mainLoop P).Reach { ready := P.ready } {} c → (mainLoop P).Allowed c ∧ ∀ s, c.1 = .ret s → KeepsWord s

/-- The core can be started, stopped, and started again. -/
def Restartable (P : Policy) : Prop :=
  P.ready = true ∧ P.wake = true ∧ (P.stop .power = true ∨ (P.stop .warm = true ∧ P.release .warm = true) ∨
    (P.stop .cold = true ∧ P.release .cold = true))

variable {P : Policy}

/-- Where the core cannot be restarted, no stop that is carried out can be undone. -/
theorem heeds_of_not_restartable (h : ¬Restartable P) {q : Req} {b : Ans q} (hact : act P q w b w') :
    Setting.Heeds ⟨P, False⟩ q w b := by
  cases q with
  | stop how =>
    refine ⟨fun hb hready hwake hundo => absurd ⟨hready, hwake, ?_⟩ h, fun _ => False.elim⟩
    obtain ⟨-, hstop, -⟩ := hact.resolve_right fun hno => by simp [hno.1] at hb
    cases how with
    | power => exact .inl hstop
    | warm => exact .inr (.inl ⟨hstop, (hundo.resolve_left nofun).2⟩)
    | cold => exact .inr (.inr ⟨hstop, (hundo.resolve_left nofun).2⟩)
    | none => exact absurd rfl (hundo.resolve_left nofun).1
  | _ => trivial

theorem inv_init (P : Setting) : Inv P { ready := P.ready } {} := by
  apply Inv.fresh
  · rfl
  · refine Quiet.calm ⟨⟨fun h => ?_, fun _ _ => ⟨rfl, rfl⟩, fun _ h => ?_, nofun⟩, .inl rfl⟩
    · exact h.elim nofun fun h => absurd rfl h
    · exact h.elim nofun nofun
  · rfl
  · exact fun _ _ hmem => by cases hmem

theorem inv_step {P : Setting} {s : Sup} (h : Inv P s w) (hstep : CoreStep w w') : Inv P s w' :=
  ⟨h.ready, stable_calm w w' h.calm hstep, h.whole, h.word⟩

theorem supervise_keeps {P : Setting} (e : Event) {s : Sup} (h : Inv P s w) :
    (supervise e s).wp (heeded P) (Inv P) w := by
  have hcode := event_holds e h
  unfold supervise
  apply Ask.wp_bind
  exact hcode

/-- **In every run whose stops heed the setting**, requests are allowed and the invariant holds
between events. -/
theorem inv_of_reach {P : Setting} (h : (heededLoop P).Reach { ready := P.ready } {} c) :
    (heededLoop P).Allowed c ∧ ∀ s, c.1 = .ret s → Inv P s c.2 :=
  Reactive.reach_of_invariant (inv_init P) (fun _ _ _ h hstep => inv_step h hstep)
    (fun e _ _ h => supervise_keeps e h) h

theorem safe_of_heeded {P : Setting} (h : (heededLoop P).Reach { ready := P.ready } {} c) :
    (heededLoop P).Allowed c ∧ ∀ s, c.1 = .ret s → KeepsWord s :=
  (inv_of_reach h).imp_right fun hinv s hs => (hinv s hs).word

/-- **Where the core cannot be restarted, all runs are safe**: their stops heed the setting. -/
theorem coreSafe_of_not_restartable (h : ¬Restartable P) : CoreSafe P := by
  have hloop : mainLoop P = heededLoop ⟨P, False⟩ := by
    refine congrArg (Reactive.mk · supervise) (congrArg (Surroundings.mk CoreStep · allowed) ?_)
    funext q w b w'
    exact propext (iff_self_and.2 (heeds_of_not_restartable h))
  intro c hreach
  rw [hloop] at hreach ⊢
  exact safe_of_heeded (P := ⟨P, False⟩) hreach

/-! ## Runs that are written down -/

/-- A step of a run: the next event, a step of the core, or the answer to a request. -/
inductive Choice where
  | event (e : Event)
  | enter
  | park
  | answer (n : ℕ)
  deriving DecidableEq, Repr

/-- The answer that a number stands for, and what the request does. -/
def answerOf (P : Policy) (w : World) : (q : Req) → ℕ → Option (Ans q × World)
  | .parked, _ => some (w.parked, w)
  | .exitRc, _ => some (w.rc, w)
  | .clearParked, _ => some ((), { w with parked := false })
  | .setEntry entry, _ => some ((), { w with entry := entry })
  | .bumpSeq, _ => some ((), { w with seq := (w.seq + 1) % 2 ^ 32 })
  | .stop how, n =>
    if n = 0 then some (false, w)
      else if P.stop how then some (true, { w with core := w.core.stopped how }) else none
  | .wake entry, n =>
    if n = 0 then some (false, w)
      else if P.wake then some (true, { w with core := w.core.woken entry }) else none
  | .release how, n =>
    if n = 0 then some (false, w)
    else if P.release how then some (true, { w with core := w.core.released how }) else none
  | .now, n => some (n, w)
  | .digest _, _ => some (List.replicate 32 0, w)
  | .place _, n => some (if n = 0 then none else some (n - 1, true), w)
  | .stage _ _, _ => some ((), w)

theorem act_of_answerOf {q : Req} {n : ℕ} {b : Ans q} (h : answerOf P w q n = some (b, w')) :
    act P q w b w' := by
  cases q with
  | stop how =>
    simp only [answerOf] at h
    split_ifs at h with hn hp <;> obtain ⟨rfl, rfl⟩ := Prod.mk.inj (Option.some.inj h)
    · exact .inr ⟨rfl, rfl⟩
    · exact .inl ⟨rfl, hp, rfl⟩
  | wake entry =>
    simp only [answerOf] at h
    split_ifs at h with hn hp <;> obtain ⟨rfl, rfl⟩ := Prod.mk.inj (Option.some.inj h)
    · exact .inr ⟨rfl, rfl⟩
    · exact .inl ⟨rfl, hp, rfl⟩
  | release how =>
    simp only [answerOf] at h
    split_ifs at h with hn hp <;> obtain ⟨rfl, rfl⟩ := Prod.mk.inj (Option.some.inj h)
    · exact .inr ⟨rfl, rfl⟩
    · exact .inl ⟨rfl, hp, rfl⟩
  | parked =>
    obtain ⟨rfl, rfl⟩ := Prod.mk.inj (Option.some.inj h)
    exact ⟨rfl, rfl⟩
  | exitRc =>
    obtain ⟨rfl, rfl⟩ := Prod.mk.inj (Option.some.inj h)
    exact ⟨rfl, rfl⟩
  | _ =>
    obtain ⟨-, rfl⟩ := Prod.mk.inj (Option.some.inj h)
    rfl

def play1 (P : Policy) : Choice → Config → Option Config
  | .event e, (.ret s, w) => some (supervise e s, w)
  | .enter, (p, w) =>
    match w.core with
    | .running _ => some (p, { w with core := .entering w.seq })
    | _ => none
  | .park, (p, w) =>
    match w.core with
    | .entering saw => some (p, { w with core := .waiting saw, parked := true })
    | _ => none
  | .answer n, (.ask q k, w) => (answerOf P w q n).map fun r => (k r.1, r.2)
  | _, _ => none

def play (P : Policy) : List Choice → Config → Option Config
  | [], c => some c
  | ch :: rest, c => (play1 P ch c).bind (play P rest)

theorem step_of_play1 {ch : Choice} (h : play1 P ch c = some c') : (mainLoop P).Step c c' := by
  obtain ⟨p, w⟩ := c
  cases ch with
  | event e =>
    cases p with
    | ret s =>
      obtain rfl := Option.some.inj h
      exact .event e
    | ask q k => cases h
  | enter =>
    simp only [play1] at h
    split at h
    · rename_i a hcore
      obtain rfl := Option.some.inj h
      exact .other (CoreStep.enter hcore)
    · cases h
  | park =>
    simp only [play1] at h
    split at h
    · rename_i saw hcore
      obtain rfl := Option.some.inj h
      exact .other (CoreStep.park hcore)
    · cases h
  | answer n =>
    cases p with
    | ret s => cases h
    | ask q k =>
      obtain ⟨⟨b, w'⟩, hb, rfl⟩ := Option.map_eq_some_iff.1 h
      exact .ask (act_of_answerOf hb)

theorem steps_of_play {l : List Choice} (h : play P l c = some c') :
    Relation.ReflTransGen (mainLoop P).Step c c' := by
  induction l generalizing c with
  | nil =>
    obtain rfl := Option.some.inj h
    exact .refl
  | cons ch rest ih =>
    obtain ⟨c₁, h₁, h₂⟩ := Option.bind_eq_some_iff.1 h
    exact .head (step_of_play1 h₁) (ih h₂)

/-! ## A mark that is left behind -/

/-- A platform manager that starts the core and carries out one kind of stop, which it undoes. -/
def onlyStop (how : StopHow) : Policy where
  ready := true
  wake := true
  stop h := h = how
  release h := h = how && how != .power

/-- A policy that carries out at least as much. -/
structure Policy.Within (P P' : Policy) : Prop where
  ready : P.ready = P'.ready
  wake : P.wake = true → P'.wake = true
  stop : ∀ how, P.stop how = true → P'.stop how = true
  release : ∀ how, P.release how = true → P'.release how = true

theorem Policy.Within.act {P P' : Policy} (h : P.Within P') {q : Req} {b : Ans q} (hact : act P q w b w') :
    Netboot.act P' q w b w' := by
  cases q with
  | stop how => exact hact.imp (fun ⟨hb, hp, hw⟩ => ⟨hb, h.stop how hp, hw⟩) id
  | wake entry => exact hact.imp (fun ⟨hb, hp, hw⟩ => ⟨hb, h.wake hp, hw⟩) id
  | release how => exact hact.imp (fun ⟨hb, hp, hw⟩ => ⟨hb, h.release how hp, hw⟩) id
  | _ => exact hact

theorem Policy.Within.step {P P' : Policy} (h : P.Within P') (hstep : (mainLoop P).Step c c') :
    (mainLoop P').Step c c' := by
  cases hstep with
  | other hw => exact .other hw
  | ask hact => exact .ask (h.act hact)
  | event e => exact .event e

theorem onlyStop_within {how : StopHow} (hready : P.ready = true) (hwake : P.wake = true)
    (hstop : P.stop how = true) (hrel : how ≠ .power → P.release how = true) : (onlyStop how).Within P where
  ready := hready.symm
  wake := fun _ => hwake
  stop := by
    intro h hh
    obtain rfl : h = how := of_decide_eq_true hh
    exact hstop
  release := by
    intro h hh
    simp only [onlyStop, Bool.and_eq_true, decide_eq_true_eq, bne_iff_ne, ne_eq] at hh
    obtain ⟨rfl, hne⟩ := hh
    exact hrel hne

theorem exists_onlyStop (h : Restartable P) : ∃ how, how ≠ .none ∧ (onlyStop how).Within P := by
  obtain ⟨hready, hwake, hstop | ⟨hstop, hrel⟩ | ⟨hstop, hrel⟩⟩ := h
  · exact ⟨.power, by simp, onlyStop_within hready hwake hstop fun hne => absurd rfl hne⟩
  · exact ⟨.warm, by simp, onlyStop_within hready hwake hstop fun _ => hrel⟩
  · exact ⟨.cold, by simp, onlyStop_within hready hwake hstop fun _ => hrel⟩

/-- The answers to the attempts to stop the core, and to what undoes the stop when it is started again. -/
def stopAnswers : StopHow → List ℕ
  | .power => [1]
  | .warm => [0, 1]
  | .cold => [0, 0, 1]
  | .none => []

def wakeAnswers : StopHow → List ℕ
  | .power => [1]
  | _ => [1, 1]

/-- A request that arrives whole, the answers while it arrives and those while it is served. -/
def exchange (bytes : List UInt8) (arriving serving : List ℕ) : List Choice :=
  [Choice.event Event.accept, Choice.event (Event.recv [bytes])] ++ arriving.map Choice.answer ++
    [Choice.event Event.round] ++ serving.map Choice.answer

/-- An app is loaded and parks before the supervisor looks at it; it is stopped and run again. -/
def staleRun (how : StopHow) : List Choice :=
  -- a load of one byte: its digest, its placement, its start; the watchdog sees no mark
  exchange (requestBytes NETBOOT_CMD_LOAD_RUN 1 noDigest ++ [0]) [5, 0] [6, 0, 6, 1, 6, 1, 7, 7, 0, 7] ++
  [Choice.enter, Choice.park] ++
  -- a kill that is served before the watchdog looks again
  exchange (requestBytes NETBOOT_CMD_KILL 0 noDigest) [8] (9 :: stopAnswers how ++ [9]) ++
  -- the same image again, up to the watchdog's look
  exchange (requestBytes NETBOOT_CMD_RERUN 0 noDigest) [9] ([9, 9, 1, 9] ++ wakeAnswers how ++ [9, 9])

/-- The supervisor is about to look at the mailbox of an app that runs, and will find it marked as parked. -/
def misled : Config → Bool
  | (.ask .parked _, { core := .running _, parked := true, .. }) => true
  | _ => false

theorem not_allowed_of_misled (h : misled c = true) : ¬(mainLoop P).Allowed c := by
  unfold misled at h
  split at h
  · rename_i k a rc seq entry
    intro hallowed
    obtain ⟨saw, hsaw⟩ := hallowed .parked k rfl true _ ⟨rfl, rfl⟩ rfl
    cases hsaw
  · cases h

theorem staleRun_misled {how : StopHow} (h : how ≠ .none) :
    (play (onlyStop how) (staleRun how) (.ret { ready := true }, {})).any misled = true := by
  cases how with
  | none => exact absurd rfl h
  | power => decide +kernel
  | warm => decide +kernel
  | cold => decide +kernel

/-- **A core that can be restarted is taken for parked while its app runs.** -/
theorem not_coreSafe_of_restartable (h : Restartable P) : ¬CoreSafe P := by
  obtain ⟨how, hne, hwithin⟩ := exists_onlyStop h
  obtain ⟨c, hplay, hmisled⟩ := (Option.any_eq_true _ _).1 (staleRun_misled hne)
  intro hsafe
  have hreach : (mainLoop P).Reach { ready := P.ready } {} c := by
    rw [h.1]
    exact Relation.ReflTransGen.mono (fun _ _ hstep => hwithin.step hstep) _ _ (steps_of_play hplay)
  exact not_allowed_of_misled hmisled (hsafe c hreach).1

/-- **Exactly the cores that cannot be restarted are safe**; of the others, the runs in which a stop
that can be undone is carried out only while the mailbox has no mark. -/
theorem core_safe_iff (P : Policy) :
    (CoreSafe P ↔ ¬Restartable P) ∧
      ∀ c, (heededLoop ⟨P, False⟩).Reach { ready := P.ready } {} c →
        (heededLoop ⟨P, False⟩).Allowed c ∧ ∀ s, c.1 = .ret s → KeepsWord s :=
  ⟨⟨fun hsafe h => not_coreSafe_of_restartable h hsafe, coreSafe_of_not_restartable⟩, fun _ => safe_of_heeded⟩

/-- A platform manager that powers the core down and up. -/
theorem not_core_safe_powerDown : ¬CoreSafe (onlyStop .power) :=
  not_coreSafe_of_restartable ⟨rfl, rfl, .inl rfl⟩

end AieHlc.Netboot
