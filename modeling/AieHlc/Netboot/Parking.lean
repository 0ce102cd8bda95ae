import AieHlc.Netboot.AppCore

/-!
# No placement on a running core

The supervisor takes a core for parked when it has woken it and the mailbox says so. That is right
as long as no core with a set mark is stopped and woken again: the mark is only cleared when a
parked core is released. An app that was parked when it was stopped leaves its mark behind for the
next one.

* `Sync`: what the variables of the supervisor say about the core; `Quiet`: no app is running.
* `Calm`, `Rests`: no app is running while a launch is admitted, nor, where stops are firm, between runs.
* `apuParked_holds` to `nbLaunch_holds`: what each part of a run does to it.
-/

namespace AieHlc.Netboot

open AieHlc.Prog

/-- A core that is on: its mark is set only in the park loop, and it waits for the number it has read. -/
def Up (w : World) : Prop :=
  match w.core with
  | .running _ => w.parked = false
  | .entering saw => w.parked = false ∧ saw = w.seq
  | .waiting saw => (w.parked = true ∧ saw = w.seq) ∨ (w.parked = false ∧ saw ≠ w.seq)
  | _ => False

/-- The core is held in a reset. -/
def StopHow.IsReset (how : StopHow) : Prop := how = .warm ∨ how = .cold

/-- The core as the supervisor's variables have it: off, held in a reset, or on. A core that can be
started has no mark, or is in the park loop. -/
structure Sync (P : Setting) (powered : Bool) (stop : StopHow) (w : World) : Prop where
  plm : powered = true ∨ stop ≠ .none → P.ready = true ∧ P.wake = true
  off : powered = false → ¬stop.IsReset → w.core = .off ∧ w.parked = false
  held : powered = false → stop.IsReset →
    (∃ a, w.core = .held stop a) ∧ (P.release stop = true → w.parked = false)
  up : powered = true → Up w

/-- No app is running: the core is down, or parked. -/
structure Quiet (P : Setting) (powered : Bool) (stop : StopHow) (w : World) : Prop where
  sync : Sync P powered stop w
  idle : powered = false ∨ w.parked = true

variable {q : Prop}

section Stability

variable {P : Setting} {b : Bool} {st : StopHow} {w w' : World}

theorem up_step (h : Up w) (hstep : CoreStep w w') : Up w' := by
  cases hstep with
  | enter hcore =>
    simp only [Up, hcore] at h
    exact ⟨h, rfl⟩
  | exitStatus rc hcore =>
    simp only [Up, hcore] at h ⊢
    exact h
  | park hcore =>
    simp only [Up, hcore] at h
    exact .inl ⟨rfl, h.2⟩
  | leave hcore hne =>
    simp only [Up, hcore] at h
    rcases h with ⟨-, heq⟩ | ⟨hp, -⟩
    · exact absurd heq.symm hne
    · exact hp

theorem not_coreStep_of_off (h : w.core = .off) : ¬CoreStep w w' := by
  intro hstep
  cases hstep <;> simp_all

theorem not_coreStep_of_held {how : StopHow} {a : ℕ} (h : w.core = .held how a) : ¬CoreStep w w' := by
  intro hstep
  cases hstep <;> simp_all

theorem stable_sync : Stable (Sync P b st) := by
  intro w w' h hstep
  refine ⟨h.plm, fun hb hst => ?_, fun hb hst => ?_, fun hb => up_step (h.up hb) hstep⟩
  · exact absurd hstep (not_coreStep_of_off (h.off hb hst).1)
  · obtain ⟨a, ha⟩ := (h.held hb hst).1
    exact absurd hstep (not_coreStep_of_held ha)

/-- A parked core is in the park loop, and stays there while the number does not change. -/
theorem Quiet.waiting (h : Quiet P true st w) : ∃ saw, w.core = .waiting saw ∧ saw = w.seq := by
  have hup := h.sync.up rfl
  have hp : w.parked = true := h.idle.resolve_left (by decide)
  unfold Up at hup
  split at hup
  · simp [hp] at hup
  · simp [hp] at hup
  · rename_i saw hcore
    rcases hup with ⟨-, heq⟩ | ⟨hnp, -⟩
    · exact ⟨saw, hcore, heq⟩
    · simp [hp] at hnp
  · exact hup.elim

theorem not_coreStep_of_waiting {saw : ℕ} (h : w.core = .waiting saw) (heq : saw = w.seq) :
    ¬CoreStep w w' := by
  intro hstep
  cases hstep <;> simp_all

theorem stable_quiet : Stable (Quiet P b st) := by
  intro w w' h hstep
  refine ⟨stable_sync w w' h.sync hstep, ?_⟩
  cases b with
  | false => exact .inl rfl
  | true =>
    obtain ⟨saw, hcore, heq⟩ := h.waiting
    exact absurd hstep (not_coreStep_of_waiting hcore heq)

/-- No app executes while all is quiet. -/
theorem Quiet.atRest (h : Quiet P b st w) : w.core.atRest = true := by
  cases b with
  | true =>
    obtain ⟨saw, hcore, -⟩ := h.waiting
    simp [hcore, Core.atRest]
  | false =>
    by_cases hst : st.IsReset
    · obtain ⟨a, ha⟩ := (h.sync.held rfl hst).1
      simp [ha, Core.atRest]
    · simp [(h.sync.off rfl hst).1, Core.atRest]

theorem Quiet.not_executes (h : Quiet P b st w) : ¬w.Executes := by
  rintro ⟨a, ha⟩
  have hrest := h.atRest
  simp [ha, Core.atRest] at hrest

/-- The variables and the core are in step, and quiet if `q` holds. -/
structure Calm (P : Setting) (q : Prop) (powered : Bool) (stop : StopHow) (w : World) : Prop where
  sync : Sync P powered stop w
  quiet : q → Quiet P powered stop w

theorem stable_calm : Stable (Calm P q b st) := by
  intro w w' h hstep
  exact ⟨stable_sync w w' h.sync hstep, fun hq => stable_quiet w w' (h.quiet hq) hstep⟩

theorem Sync.quiet_of_parked (h : Sync P b st w) (hp : w.parked = true) : Quiet P b st w := ⟨h, .inr hp⟩

theorem Sync.quiet_of_down (h : Sync P b st w) (hb : b = false) : Quiet P b st w := ⟨h, .inl hb⟩

theorem Sync.calm_of_down (h : Sync P b st w) (hb : b = false) : Calm P q b st w :=
  ⟨h, fun _ => h.quiet_of_down hb⟩

theorem Quiet.calm (h : Quiet P b st w) : Calm P q b st w := ⟨h.sync, fun _ => h⟩

theorem Calm.imp {q q' : Prop} (h : Calm P q b st w) (hq : q' → q) : Calm P q' b st w :=
  ⟨h.sync, fun hq' => h.quiet (hq hq')⟩

end Stability

/-- Between runs, where stops are firm. -/
def Rests (P : Setting) (state : NbState) : Prop := P.firm ∧ state ≠ .running

theorem not_rests_running {P : Setting} : ¬Rests P .running := fun h => h.2 rfl

/-! ## The driver of the core -/

/-- What the driver and the runs leave alone: the server's part of the variables. -/
structure Kept (s s' : Sup) : Prop where
  ready : s'.ready = s.ready
  conn : s'.conn = s.conn
  sent : s'.sent = s.sent

theorem Kept.refl (s : Sup) : Kept s s := ⟨rfl, rfl, rfl⟩

theorem Kept.trans {s s' s'' : Sup} (h : Kept s s') (h' : Kept s' s'') : Kept s s'' :=
  ⟨h'.ready.trans h.ready, h'.conn.trans h.conn, h'.sent.trans h.sent⟩

section Driver

variable {P : Setting} {s : Sup} {w : World} {K : World → Prop}

/-- `apu_parked`: what it returns is so, and stays so. -/
theorem apuParked_holds (hK : Stable K) (hsync : ∀ w, K w → Sync P s.powered s.stop w) (hw : K w) :
    Holds P apuParked (fun b s' w' => s' = s ∧ K w' ∧ (b = true → s.powered = true ∧ w'.parked = true) ∧
      (b = false → s.powered = false ∨ w'.parked = false)) s w := by
  apply holds_get
  apply holds_ite
  · intro hp
    apply holds_ask hK hw
    rintro w hw b w' ⟨rfl, rfl⟩
    refine ⟨?_, rfl, hw, fun hb => ⟨hp, hb⟩, .inr⟩
    intro hb
    have hquiet := (hsync _ hw).quiet_of_parked hb
    rw [hp] at hquiet
    obtain ⟨saw, hcore, -⟩ := hquiet.waiting
    exact ⟨saw, hcore⟩
  · intro hp
    exact holds_pure ⟨rfl, hw, nofun, fun _ => .inl (by simpa using hp)⟩

/-- A core that is stopped is down, and leaves no mark to one that is started. -/
theorem Sync.stopped {how : StopHow} {w : World} (hne : how ≠ .none) (hplm : P.ready = true ∧ P.wake = true)
    (hmark : P.ready = true → P.wake = true → P.Undoes how → w.parked = false) :
    Sync P false how { w with core := w.core.stopped how } := by
  refine ⟨fun _ => hplm, fun _ hreset => ?_, fun _ hreset => ⟨⟨0, ?_⟩, fun hrel => ?_⟩, nofun⟩
  · obtain rfl : how = .power := by
      cases how <;> simp_all [StopHow.IsReset]
    exact ⟨rfl, hmark hplm.1 hplm.2 (.inl rfl)⟩
  · rcases hreset with rfl | rfl <;> rfl
  · exact hmark hplm.1 hplm.2 (.inr ⟨hne, hrel⟩)

/-- Stops that are refused change nothing, and are not firm. -/
theorem tryStops_holds (hp : s.powered = true) (hw : Calm P q s.powered s.stop w) :
    Holds P tryStops (fun r s' w' => s' = s ∧ (r = none → Calm P q s.powered s.stop w' ∧ ¬P.firm) ∧
      ∀ how, r = some how → Sync P false how w') s w := by
  have hplm := hw.sync.plm (.inl hp)
  have hdown : ∀ how, how ≠ .none → ∀ w : World,
      (P.ready = true → P.wake = true → P.Undoes how → w.parked = false) →
      Holds P (pure (some how)) (fun r s' w' => s' = s ∧ (r = none → Calm P q s.powered s.stop w' ∧ ¬P.firm) ∧
        ∀ how, r = some how → Sync P false how w') s { w with core := w.core.stopped how } := by
    intro how hne w hmark
    refine holds_pure ⟨rfl, nofun, fun how' heq => ?_⟩
    obtain rfl := Option.some.inj heq
    exact Sync.stopped hne hplm hmark
  apply holds_bind
  refine holds_stop stable_calm hw (fun w _ _ => hdown .power (by decide) w) fun w hw _ => ?_
  apply holds_bind
  refine holds_stop stable_calm hw (fun w _ _ => hdown .warm (by decide) w) fun w hw _ => ?_
  apply holds_bind
  refine holds_stop stable_calm hw (fun w _ _ => hdown .cold (by decide) w) fun w hw hfirm => ?_
  exact holds_pure ⟨rfl, fun _ => ⟨hw, hfirm rfl⟩, nofun⟩

theorem apuKill_holds (hready : s.ready = P.ready) (hw : Calm P q s.powered s.stop w) :
    Holds P apuKill (fun rc s' w' => Kept s s' ∧ s'.state = s.state ∧ Calm P q s'.powered s'.stop w' ∧
      (rc = 0 ∨ P.firm → s'.powered = false)) s w := by
  apply holds_get
  apply holds_ite
  · intro hr
    refine holds_pure ⟨Kept.refl s, rfl, hw, fun _ => ?_⟩
    by_contra hp
    have hP := (hw.sync.plm (.inl (by simpa using hp))).1
    rw [← hready, hr] at hP
    cases hP
  intro _
  apply holds_ite
  · intro hp
    exact holds_pure ⟨Kept.refl s, rfl, hw, fun _ => hp⟩
  intro hp
  have hp : s.powered = true := by simpa using hp
  apply holds_seq (tryStops_holds hp hw)
  rintro r s' w' ⟨rfl, hnone, hsome⟩
  cases r with
  | none =>
    obtain ⟨hcalm, hfirm⟩ := hnone rfl
    apply holds_bind
    refine holds_modify (holds_pure ⟨⟨rfl, rfl, rfl⟩, rfl, hcalm, fun h => ?_⟩)
    rcases h with h | h
    · exact absurd h (by decide)
    · exact absurd h hfirm
  | some how =>
    apply holds_bind
    exact holds_modify (holds_pure ⟨⟨rfl, rfl, rfl⟩, rfl, (hsome how rfl).calm_of_down rfl, fun _ => rfl⟩)

/-- `apu_release`: from the park loop, with the number bumped last. -/
theorem apuRelease_holds (entry : ℕ) (hp : s.powered = true) (hw : Quiet P s.powered s.stop w) :
    Holds P (apuRelease entry) (fun _ s' w' => s' = s ∧ Sync P s.powered s.stop w') s w := by
  have hplm := hw.sync.plm (.inl hp)
  -- between the two writes the core waits for a number that has not changed
  let K : World → Prop := fun w => ∃ saw, w.core = .waiting saw ∧ saw = w.seq ∧ w.parked = false
  have hK : Stable K := by
    rintro w w' ⟨saw, hcore, heq, -⟩ hstep
    exact absurd hstep (not_coreStep_of_waiting hcore heq)
  apply holds_bind
  apply holds_ask stable_quiet hw
  rintro w hw b w' rfl
  have hwait : ∃ saw, w.core = .waiting saw ∧ saw = w.seq := by
    rw [hp] at hw
    exact hw.waiting
  obtain ⟨saw, hcore, heq⟩ := hwait
  refine ⟨trivial, holds_bind (holds_ask (K := K) hK ⟨saw, hcore, heq, rfl⟩ ?_)⟩
  rintro w hw b w' rfl
  refine ⟨trivial, holds_ask (K := K) hK hw ?_⟩
  rintro w ⟨saw, hcore, heq, hpark⟩ b w' rfl
  refine ⟨?_, rfl, fun _ => hplm, ?_, ?_, ?_⟩
  · rintro ⟨a, ha⟩
    rw [hcore] at ha
    cases ha
  · intro hd
    rw [hp] at hd
    cases hd
  · intro hd
    rw [hp] at hd
    cases hd
  · intro _
    simp only [Up, hcore]
    refine .inr ⟨hpark, ?_⟩
    omega

theorem wakeCore_holds (entry : ℕ) (hp : s.powered = false) (hw : Sync P s.powered s.stop w) :
    Holds P (wakeCore entry) (fun b s' w' => s' = s ∧ (b = true → P.wake = true ∧ Up w') ∧
      (b = false → Sync P s.powered s.stop w')) s w := by
  have hnp : ¬s.powered = true := by simp [hp]
  apply holds_bind
  apply holds_ask stable_sync hw
  rintro w hw st w' hact
  refine ⟨trivial, ?_⟩
  apply holds_get
  apply holds_ite
  · -- held in a reset: the wake sets the address, the release starts the core or is refused
    intro hreset
    obtain ⟨⟨a, ha⟩, hmark⟩ := hw.held hp hreset
    have hplm := hw.plm (.inr (by rintro hn; rw [hn] at hreset; rcases hreset with h | h <;> cases h))
    have hsync : Sync P s.powered s.stop w' := by
      rcases hact with ⟨-, -, rfl⟩ | ⟨-, rfl⟩
      · refine ⟨hw.plm, fun _ h => absurd hreset h, fun _ _ => ⟨⟨entry, ?_⟩, hmark⟩, fun h => absurd h hnp⟩
        simp only [ha, Core.woken]
      · exact hw
    apply holds_ask stable_sync hsync
    rintro w hw b w' (⟨rfl, hyes, rfl⟩ | ⟨rfl, rfl⟩)
    · obtain ⟨⟨a, ha⟩, hmark⟩ := hw.held hp hreset
      refine ⟨trivial, rfl, fun _ => ⟨hplm.2, ?_⟩, nofun⟩
      simp only [Up, ha, Core.released, if_true]
      exact hmark hyes
    · exact ⟨trivial, rfl, nofun, fun _ => hw⟩
  · intro hreset
    obtain ⟨hoff, hpark⟩ := hw.off hp hreset
    apply holds_pure
    rcases hact with ⟨rfl, hwake, rfl⟩ | ⟨rfl, rfl⟩
    · refine ⟨rfl, fun _ => ⟨hwake, ?_⟩, nofun⟩
      simp only [Up, hoff, Core.woken]
      exact hpark
    · exact ⟨rfl, nofun, fun _ => hw⟩

/-- `apu_start`, when no app is running; it starts one or leaves the core as it is. -/
theorem apuStart_holds (entry : ℕ) (hready : s.ready = P.ready) (hw : Quiet P s.powered s.stop w) :
    Holds P (apuStart entry) (fun rc s' w' => Kept s s' ∧ Sync P s'.powered s'.stop w' ∧
      (rc ≠ 0 → Quiet P s'.powered s'.stop w')) s w := by
  apply holds_get
  apply holds_ite
  · intro _
    exact holds_pure ⟨Kept.refl s, hw.sync, fun _ => hw⟩
  intro hr
  apply holds_seq (apuParked_holds stable_quiet (fun _ h => h.sync) hw)
  rintro b s' w ⟨rfl, hw, htrue, hfalse⟩
  cases b with
  | true =>
    apply holds_seq (apuRelease_holds entry (htrue rfl).1 hw)
    rintro _ s' w ⟨rfl, hsync⟩
    exact holds_pure ⟨Kept.refl s', hsync, fun h => absurd rfl h⟩
  | false =>
    have hp : s'.powered = false := by
      rcases hfalse rfl with hp | hnp
      · exact hp
      · exact hw.idle.resolve_right (by simp [hnp])
    apply holds_bind
    apply holds_get
    rw [if_neg (by simp [hp])]
    apply holds_pure
    rw [if_neg (by decide)]
    apply holds_seq (wakeCore_holds entry hp hw.sync)
    rintro b s w ⟨rfl, hup, hsync⟩
    cases b with
    | true =>
      have hP : P.ready = true := by
        rw [← hready]
        simpa using hr
      obtain ⟨hwake, hup⟩ := hup rfl
      apply holds_bind
      exact holds_modify (holds_pure
        ⟨⟨rfl, rfl, rfl⟩, ⟨fun _ => ⟨hP, hwake⟩, nofun, nofun, fun _ => hup⟩, fun h => absurd rfl h⟩)
    | false => exact holds_pure ⟨Kept.refl s, hsync rfl, fun _ => (hsync rfl).quiet_of_down hp⟩

end Driver

/-! ## Runs -/

section Runs

variable {P : Setting} {s : Sup} {w : World} {K : World → Prop}

theorem whenDo_holds {c : Bool} {p : SupM Unit} {R : Unit → Sup → World → Prop}
    (h : c = true → Holds P p R s w) (h' : c = false → R () s w) : Holds P (whenDo c p) R s w := by
  unfold whenDo
  cases c with
  | true => exact h rfl
  | false => exact holds_pure (h' rfl)

/-- `nb_kill`: a firm stop ends the run, and one that reports success too. -/
theorem nbKill_holds (hready : s.ready = P.ready) (hw : Calm P (q ∨ Rests P s.state) s.powered s.stop w) :
    Holds P nbKill (fun rc s' w' => Kept s s' ∧ Calm P (q ∨ Rests P s'.state) s'.powered s'.stop w' ∧
      (rc = 0 → s'.state ≠ .running) ∧ (s.state = .running → rc = 0 ∨ P.firm → s'.powered = false)) s w := by
  apply holds_get
  apply holds_ite
  · intro hrun
    exact holds_pure ⟨Kept.refl s, hw, fun _ => hrun, fun h => absurd h hrun⟩
  intro hrun
  have hrun : s.state = .running := by simpa using hrun
  apply holds_seq (apuKill_holds hready (hw.imp Or.inl))
  rintro rc s' w' ⟨hkept, hstate, hcalm, hdown⟩
  apply holds_bind
  apply whenDo_holds
  · intro hrc
    have hrc : rc = 0 := by simpa using hrc
    refine holds_modify (holds_pure ⟨⟨hkept.ready, hkept.conn, hkept.sent⟩, ?_,
      fun _ => by simp, fun _ => hdown⟩)
    exact hcalm.sync.calm_of_down (hdown (.inl hrc))
  · intro hrc
    have hrc : rc ≠ 0 := by simpa using hrc
    refine holds_pure ⟨hkept, hcalm.imp fun h => h.resolve_right ?_, fun h => absurd h hrc, fun _ => hdown⟩
    rw [hstate, hrun]
    exact not_rests_running

theorem coreBusy_holds (hK : Stable K) (hsync : ∀ w, K w → Sync P s.powered s.stop w) (hw : K w) :
    Holds P coreBusy (fun b s' w' => s' = s ∧ K w' ∧ (b = true → s.powered = true ∧ w'.parked = false) ∧
      (b = false → s.powered = false ∨ w'.parked = true)) s w := by
  apply holds_get
  apply holds_ite
  · intro hp
    apply holds_seq (apuParked_holds hK hsync hw)
    rintro b s' w' ⟨rfl, hw, htrue, hfalse⟩
    apply holds_pure
    cases b with
    | true => exact ⟨rfl, hw, nofun, fun _ => .inr (htrue rfl).2⟩
    | false =>
      refine ⟨rfl, hw, fun _ => ⟨hp, (hfalse rfl).resolve_left (by simp [hp])⟩, nofun⟩
  · intro hp
    exact holds_pure ⟨rfl, hw, nofun, fun _ => .inl (by simpa using hp)⟩

theorem now_holds (hK : Stable K) (hw : K w) : Holds P (askFor .now) (fun _ s' w' => s' = s ∧ K w') s w := by
  apply holds_ask hK hw
  rintro w hw b w' rfl
  exact ⟨trivial, rfl, hw⟩

theorem startPlaced_holds (maxRunMs entry placeMs : ℕ) (hready : s.ready = P.ready)
    (hw : Quiet P s.powered s.stop w) :
    Holds P (startPlaced maxRunMs entry placeMs)
      (fun r s' w' => Kept s s' ∧ Calm P (Rests P s'.state) s'.powered s'.stop w' ∧ r.1 ≠ -5) s w := by
  apply holds_bind
  apply holds_modify
  apply holds_bind
  refine holds_mono (apuStart_holds entry ?_ ?_) ?_
  · exact hready
  · exact hw
  rintro rc s' w' ⟨hkept, hsync, hquiet⟩
  have hkept : Kept s s' := ⟨hkept.ready, hkept.conn, hkept.sent⟩
  apply holds_ite
  · intro hrc
    apply holds_bind
    exact holds_modify (holds_pure ⟨⟨hkept.ready, hkept.conn, hkept.sent⟩, (hquiet hrc).calm, by simp⟩)
  · intro _
    apply holds_seq (now_holds stable_sync hsync)
    rintro t s'' w'' ⟨rfl, hsync⟩
    apply holds_bind
    exact holds_modify (holds_pure
      ⟨⟨hkept.ready, hkept.conn, hkept.sent⟩, ⟨hsync, fun h => absurd h not_rests_running⟩, by simp⟩)

/-- App memory is written while no app is running. -/
theorem placeStaged_holds (maxRunMs : ℕ) (hready : s.ready = P.ready) (hw : Quiet P s.powered s.stop w) :
    Holds P (placeStaged maxRunMs)
      (fun r s' w' => Kept s s' ∧ Calm P (Rests P s'.state) s'.powered s'.stop w' ∧ r.1 ≠ -5) s w := by
  apply holds_seq (now_holds stable_quiet hw)
  rintro t₀ s' w ⟨rfl, hw⟩
  apply holds_get
  apply holds_bind
  apply holds_ask stable_quiet hw
  rintro w hw placed w' rfl
  refine ⟨hw.not_executes, ?_⟩
  cases placed with
  | none =>
    apply holds_bind
    exact holds_modify (holds_pure ⟨⟨rfl, rfl, rfl⟩, hw.calm, by simp⟩)
  | some r =>
    apply holds_seq (now_holds stable_quiet hw)
    rintro t s w ⟨rfl, hw⟩
    exact startPlaced_holds _ _ _ hready hw

/-- `nb_launch`; it does not refuse when no app was running. -/
theorem nbLaunch_holds (maxRunMs : ℕ) (hready : s.ready = P.ready)
    (hw : Calm P (q ∨ Rests P s.state) s.powered s.stop w) :
    Holds P (nbLaunch maxRunMs)
      (fun r s' w' => Kept s s' ∧ Calm P (Rests P s'.state) s'.powered s'.stop w' ∧ (q → r.1 ≠ -5)) s w := by
  apply holds_get
  apply holds_ite
  · intro _
    exact holds_pure ⟨Kept.refl s, hw.imp Or.inr, fun _ => by decide⟩
  intro _
  apply holds_seq (apuParked_holds stable_calm (fun _ h => h.sync) hw)
  rintro parked s' w₁ ⟨rfl, hw₁, -, -⟩
  have hkill : Holds P (whenDo (!parked) (do let _ ← nbKill))
      (fun _ s₂ w₂ => Kept s' s₂ ∧ Calm P (q ∨ Rests P s₂.state) s₂.powered s₂.stop w₂) s' w₁ := by
    apply whenDo_holds
    · intro _
      apply holds_seq (nbKill_holds hready hw₁)
      rintro rc s₂ w₂ ⟨hkept, hcalm, -, -⟩
      exact holds_pure ⟨hkept, hcalm⟩
    · intro _
      exact ⟨Kept.refl s', hw₁⟩
  apply holds_seq hkill
  rintro _ s₂ w₂ ⟨hkept, hw₂⟩
  apply holds_seq (coreBusy_holds stable_calm (fun _ h => h.sync) hw₂)
  rintro busy s₃ w₃ ⟨rfl, hw₃, hbusy, hnot⟩
  apply holds_ite
  · intro hb
    refine holds_pure ⟨hkept, hw₃.imp Or.inr, fun hq => ?_⟩
    obtain ⟨hp, hnp⟩ := hbusy hb
    rcases (hw₃.quiet (.inl hq)).idle with h | h
    · rw [hp] at h
      cases h
    · rw [hnp] at h
      cases h
  · intro hb
    have hquiet : Quiet P s₃.powered s₃.stop w₃ := ⟨hw₃.sync, hnot (by simpa using hb)⟩
    apply holds_mono (placeStaged_holds maxRunMs (hkept.ready.trans hready) hquiet)
    rintro r s₄ w₄ ⟨hkept', hcalm, hrc⟩
    exact ⟨hkept.trans hkept', hcalm, fun _ => hrc⟩

end Runs

end AieHlc.Netboot
