import AieHlc.Netboot.Parking

/-!
# Admission and the server beside the app core

A request of version 2 is admitted before its payload is sent. From then on, until it is answered,
no app runs: the core was down or parked, or it was stopped for the request, and only a launch
starts it again.

* `nbAdmit_holds`: a launch that is admitted finds no app running; `watchdog_holds`: the watchdog keeps that.
* `Inv`: the invariant of the main loop between two events.
* `Polled`, `serverPoll_holds`: after the server's part of a round, a KILL that was answered with
  success has ended the run.
* `event_holds`: every event keeps the invariant.
-/

namespace AieHlc.Netboot

open List AieHlc.Prog

section Admit

variable {P : Setting} {s : Sup} {w : World} {q : Prop}

theorem coreView_holds (hw : Calm P q s.powered s.stop w) :
    Holds P coreView (fun v s' w' => s' = s ∧ Calm P (q ∨ v ≠ .busy) s.powered s.stop w') s w := by
  apply holds_seq (apuParked_holds stable_calm (fun _ h => h.sync) hw)
  rintro b s' w' ⟨rfl, hw, htrue, -⟩
  cases b with
  | true => exact holds_pure ⟨rfl, hw.sync, fun _ => hw.sync.quiet_of_parked (htrue rfl).2⟩
  | false =>
    apply holds_get
    refine holds_pure ⟨rfl, hw.sync, fun h => ?_⟩
    cases hp : s'.powered with
    | true =>
      rw [hp] at h hw
      exact hw.quiet (h.resolve_right (by simp))
    | false =>
      rw [hp] at hw
      exact hw.sync.quiet_of_down rfl

/-- `nb_fill_ack`: a core that is not shown as busy is not running an app. -/
theorem nbFillAck_holds (hw : Calm P q s.powered s.stop w) :
    Holds P nbFillAck (fun ack s' w' => s' = s ∧ Calm P (q ∨ ack.core ≠ .busy) s.powered s.stop w') s w := by
  apply holds_seq (coreView_holds hw)
  rintro core s' w' ⟨rfl, hw⟩
  apply holds_get
  apply holds_ite
  · intro _
    apply holds_seq (now_holds stable_calm hw)
    rintro now s w ⟨rfl, hw⟩
    exact holds_pure ⟨rfl, hw⟩
  · intro _
    exact holds_pure ⟨rfl, hw⟩

/-- A forced run is admitted once the core is down. -/
theorem forceOut_holds (hready : s.ready = P.ready) (hw : Sync P s.powered s.stop w) :
    Holds P forceOut (fun ack s' w' => Kept s s' ∧
      Calm P (ack.verdict = .ok ∨ Rests P s'.state) s'.powered s'.stop w') s w := by
  apply holds_bind
  apply holds_modify
  apply holds_bind
  refine holds_mono (nbKill_holds (q := False) ?_ ?_) ?_
  · exact hready
  · exact ⟨hw, fun h => h.elim False.elim fun hrest => absurd hrest not_rests_running⟩
  rintro rc s' w' ⟨hkept, hcalm, -, hdown⟩
  have hkept : Kept s s' := ⟨hkept.ready, hkept.conn, hkept.sent⟩
  apply holds_ite
  · intro hrc
    have hdown := hdown rfl (.inl hrc)
    apply holds_seq (nbFillAck_holds (hcalm.sync.calm_of_down (q := True) hdown))
    rintro ack s'' w'' ⟨rfl, hw⟩
    exact holds_pure ⟨hkept, hw.sync.calm_of_down hdown⟩
  · intro _
    apply holds_bind
    apply holds_modify
    apply holds_bind
    refine holds_mono (nbFillAck_holds (q := P.firm) ?_) ?_
    · exact ⟨hcalm.sync, fun hfirm => hcalm.sync.quiet_of_down (hdown rfl (.inr hfirm))⟩
    rintro ack s'' w'' ⟨rfl, hw⟩
    refine holds_pure ⟨⟨hkept.ready, hkept.conn, hkept.sent⟩, hw.imp fun h => ?_⟩
    exact h.elim nofun fun hrest => .inl hrest.1

/-- **A launch that is admitted finds no app running.** -/
theorem nbAdmit_holds (cmd flags : ℕ) (hready : s.ready = P.ready)
    (hw : Calm P (Rests P s.state) s.powered s.stop w) :
    Holds P (nbAdmit cmd flags) (fun ack s' w' => Kept s s' ∧
      Calm P ((ack.verdict = .ok ∧ IsLaunch cmd) ∨ Rests P s'.state) s'.powered s'.stop w') s w := by
  apply holds_bind
  refine holds_mono (nbFillAck_holds hw) ?_
  rintro ack s' w' ⟨rfl, hw⟩
  apply holds_get
  apply holds_ite
  · intro hcmd
    exact holds_pure ⟨Kept.refl s', hw.imp fun h => .inl (h.resolve_left fun hok =>
      absurd hok.2 (by simpa [IsLaunch] using hcmd))⟩
  intro _
  have hrefuse : ∀ v, v ≠ Verdict.ok → Calm P ((v = .ok ∧ IsLaunch cmd) ∨
      Rests P s'.state) s'.powered s'.stop w' :=
    fun v hv => hw.imp fun h => .inl (h.resolve_left fun hok => hv hok.1)
  apply holds_ite
  · exact fun _ => holds_pure ⟨Kept.refl s', hrefuse _ nofun⟩
  intro _
  apply holds_ite
  · intro hcore
    exact holds_pure ⟨Kept.refl s', hw.imp fun _ => .inr hcore⟩
  intro _
  apply holds_ite
  · exact fun _ => holds_pure ⟨Kept.refl s', hrefuse _ nofun⟩
  intro _
  apply holds_ite
  · exact fun _ => holds_pure ⟨Kept.refl s', hrefuse _ nofun⟩
  intro _
  apply holds_mono (forceOut_holds hready hw.sync)
  rintro ack s w ⟨hkept, hw⟩
  exact ⟨hkept, hw.imp fun h => h.imp_left And.left⟩

/-- The watchdog may stop a run, and never starts one. -/
theorem watchdog_holds (hready : s.ready = P.ready) (hw : Calm P (q ∨ Rests P s.state) s.powered s.stop w) :
    Holds P watchdog (fun _ s' w' => Kept s s' ∧ Calm P (q ∨ Rests P s'.state) s'.powered s'.stop
      w') s w := by
  have hover : Holds P runOver (fun b s' w' => s' = s ∧ Calm P (q ∨ Rests P s.state) s.powered s.stop w' ∧
      (b = true → Quiet P s.powered s.stop w')) s w := by
    apply holds_get
    apply holds_ite
    · intro _
      apply holds_mono (apuParked_holds stable_calm (fun _ h => h.sync) hw)
      rintro b s' w' ⟨rfl, hw, htrue, -⟩
      exact ⟨rfl, hw, fun hb => hw.sync.quiet_of_parked (htrue hb).2⟩
    · intro _
      exact holds_pure ⟨rfl, hw, nofun⟩
  apply holds_seq hover
  rintro b s' w' ⟨rfl, hw, hquiet⟩
  apply holds_ite
  · intro hb
    exact holds_modify ⟨⟨rfl, rfl, rfl⟩, (hquiet hb).calm⟩
  intro _
  apply holds_seq (now_holds stable_calm hw)
  rintro now s w ⟨rfl, hw⟩
  apply holds_get
  apply holds_ite
  · intro _
    exact holds_pure ⟨Kept.refl s, hw⟩
  intro hlate
  have hrun : s.state = .running := by_contra fun h => hlate (.inl h)
  apply holds_seq (nbKill_holds hready hw)
  rintro rc s₁ w₁ ⟨hkept, hcalm, -, hdown⟩
  apply whenDo_holds
  · intro _
    refine holds_modify ⟨⟨hkept.ready, hkept.conn, hkept.sent⟩, hcalm.sync, fun h => ?_⟩
    rcases h with h | h
    · exact hcalm.quiet (.inl h)
    · exact hcalm.sync.quiet_of_down (hdown hrun (.inr h.1))
  · intro _
    exact ⟨hkept, hcalm⟩

end Admit

/-! ## The server -/

/-- A launch that was admitted is still to be answered. -/
def Admitted (s : Sup) : Prop := s.conn.acked = true ∧ IsLaunch s.conn.req.cmd

/-- Between two events: variables and core are in step, no app runs while a launch is admitted nor,
where stops are firm, between runs, only whole headers were acknowledged, and no admitted launch was
refused. -/
structure Inv (P : Setting) (s : Sup) (w : World) : Prop where
  ready : s.ready = P.ready
  calm : Calm P (Admitted s ∨ Rests P s.state) s.powered s.stop w
  whole : s.conn.acked = true → s.conn.hdr.length = sizeofReq
  word : KeepsWord s

/-- An answer to KILL that reports success. -/
def Sent.killed : Sent → Bool
  | .rep cmd _ r => cmd = NETBOOT_CMD_KILL && r.rc = 0
  | .ack _ => false

/-- No KILL was answered with success since the first `n` messages. -/
def Fresh (n : ℕ) (s : Sup) : Prop := ∀ m ∈ s.sent.drop n, m.killed = false

/-- After the server's part of a round: a KILL that was answered with success in it has ended the run. -/
structure Polled (P : Setting) (n : ℕ) (s : Sup) (w : World) : Prop where
  inv : Inv P s w
  ended : (∃ m ∈ s.sent.drop n, m.killed = true) → s.state ≠ .running

section Server

variable {P : Setting} {s s' : Sup} {w w' : World} {n : ℕ}

theorem Inv.fresh (hready : s.ready = P.ready) (hcalm : Calm P (Rests P s.state) s.powered s.stop w)
    (hacked : s.conn.acked = false) (hword : KeepsWord s) : Inv P s w where
  ready := hready
  calm := by
    refine hcalm.imp fun h => h.resolve_left fun hadm => ?_
    rw [Admitted, hacked] at hadm
    cases hadm.1
  whole h := by simp [hacked] at h
  word := hword

/-- While nothing was answered, there is nothing to show. -/
theorem Inv.polled (h : Inv P s w) (hn : Fresh n s) : Polled P n s w := by
  refine ⟨h, ?_⟩
  rintro ⟨m, hm, hkilled⟩
  rw [hn m hm] at hkilled
  cases hkilled

theorem Fresh.kept (h : Fresh n s) (hkept : Kept s s') : Fresh n s' := by
  unfold Fresh
  rwa [hkept.sent]

theorem Inv.kept (h : Inv P s w) (hkept : Kept s s')
    (hcalm : Calm P (Admitted s ∨ Rests P s'.state) s'.powered s'.stop w') : Inv P s' w' where
  ready := hkept.ready.trans h.ready
  calm := by
    have hadm : Admitted s' ↔ Admitted s := by rw [Admitted, Admitted, hkept.conn]
    exact hcalm.imp (Or.imp_left hadm.1)
  whole := by
    rw [hkept.conn]
    exact h.whole
  word := by
    unfold KeepsWord
    rw [hkept.sent]
    exact h.word

theorem connReset_holds (h : Inv P s w) : Holds P connReset (fun _ => Inv P) s w :=
  holds_modify (Inv.fresh h.ready (h.calm.imp Or.inr) rfl h.word)

/-- A reply ends the connection; it must not refuse a launch that was admitted, nor report a KILL
that did not end the run. -/
theorem reply_holds (rc : ℤ) (rxMs placeMs : ℕ) (hready : s.ready = P.ready)
    (hcalm : Calm P (Rests P s.state) s.powered s.stop w) (hword : KeepsWord s) (hn : Fresh n s)
    (hrc : Admitted s → rc ≠ -5) (hkill : s.conn.req.cmd = NETBOOT_CMD_KILL → rc = 0 → s.state ≠ .running) :
    Holds P (reply rc rxMs placeMs) (fun _ => Polled P n) s w := by
  have hrun : Holds P runMs (fun _ s' w' => s' = s ∧ Calm P (Rests P s.state) s.powered s.stop w') s w := by
    apply holds_get
    apply holds_ite
    · intro _
      apply holds_seq (now_holds stable_calm hcalm)
      rintro now s' w' ⟨rfl, hcalm⟩
      exact holds_pure ⟨rfl, hcalm⟩
    · intro _
      exact holds_pure ⟨rfl, hcalm⟩
  apply holds_seq hrun
  rintro run s' w' ⟨rfl, hcalm⟩
  apply holds_modify
  constructor
  · apply Inv.fresh
    · exact hready
    · exact hcalm
    · rfl
    · intro cmd r hmem hlaunch
      rcases mem_append.1 hmem with hmem | hmem
      · exact hword cmd r hmem hlaunch
      · obtain ⟨rfl, hacked, rfl⟩ := Sent.rep.inj (mem_singleton.1 hmem)
        exact hrc ⟨hacked.symm, hlaunch⟩
  · rintro ⟨m, hm, hkilled⟩
    change m ∈ (s'.sent ++ _).drop n at hm
    rw [drop_append] at hm
    rcases mem_append.1 hm with hm | hm
    · rw [hn m hm] at hkilled
      cases hkilled
    · rw [mem_singleton.1 (mem_of_mem_drop hm)] at hkilled
      simp only [Sent.killed, Bool.and_eq_true, decide_eq_true_eq] at hkilled
      exact hkill hkilled.1 hkilled.2

theorem nbLaunch_reply_holds (maxRunMs rxMs : ℕ) (h : Inv P s w) (hn : Fresh n s)
    (hcmd : s.conn.req.cmd ≠ NETBOOT_CMD_KILL) :
    Holds P (do
      let (rc, placeMs) ← nbLaunch maxRunMs
      reply rc rxMs placeMs) (fun _ => Polled P n) s w := by
  apply holds_seq (nbLaunch_holds maxRunMs h.ready h.calm)
  rintro ⟨rc, placeMs⟩ s' w' ⟨hkept, hcalm, hrc⟩
  apply reply_holds _ _ _ (hkept.ready.trans h.ready) hcalm
  · unfold KeepsWord
    rw [hkept.sent]
    exact h.word
  · exact hn.kept hkept
  · intro hadm
    apply hrc
    rwa [Admitted, hkept.conn] at hadm
  · intro hkill
    rw [hkept.conn] at hkill
    exact absurd hkill hcmd

theorem handleLoadRun_holds (rxMs : ℕ) (h : Inv P s w) (hn : Fresh n s)
    (hcmd : s.conn.req.cmd ≠ NETBOOT_CMD_KILL) : Holds P (handleLoadRun rxMs) (fun _ => Polled P n) s w := by
  apply holds_get
  apply holds_bind
  apply holds_ask stable_calm h.calm
  rintro w hw digest w' rfl
  refine ⟨trivial, ?_⟩
  apply holds_ite
  · intro _
    exact reply_holds _ _ _ h.ready (hw.imp Or.inr) h.word hn (fun _ => by decide) fun hk => absurd hk hcmd
  · intro _
    apply holds_bind
    apply holds_modify
    have h' : Inv P s w' := ⟨h.ready, hw, h.whole, h.word⟩
    exact nbLaunch_reply_holds _ _ (h'.kept ⟨rfl, rfl, rfl⟩ hw) (hn.kept ⟨rfl, rfl, rfl⟩) hcmd

theorem handleRerun_holds (h : Inv P s w) (hn : Fresh n s) (hcmd : s.conn.req.cmd ≠ NETBOOT_CMD_KILL) :
    Holds P handleRerun (fun _ => Polled P n) s w := by
  apply holds_get
  apply holds_ite
  · intro _
    exact nbLaunch_reply_holds _ _ h hn hcmd
  · intro _
    exact reply_holds _ _ _ h.ready (h.calm.imp Or.inr) h.word hn (fun _ => by decide)
      fun hk => absurd hk hcmd

theorem handleStatus_holds (h : Inv P s w) (hn : Fresh n s) (hcmd : s.conn.req.cmd ≠ NETBOOT_CMD_KILL) :
    Holds P handleStatus (fun _ => Polled P n) s w := by
  apply holds_seq (apuParked_holds stable_calm (fun _ h => h.sync) h.calm)
  rintro parked s' w' ⟨rfl, hw, -, -⟩
  apply holds_bind
  have hrc : Holds P (whenDo parked (do let _ ← askFor .exitRc))
      (fun _ s w => s = s' ∧ Calm P (Admitted s' ∨ Rests P s'.state) s'.powered s'.stop w) s' w' := by
    apply whenDo_holds
    · intro _
      apply holds_bind
      apply holds_ask stable_calm hw
      rintro w hw rc w' ⟨-, rfl⟩
      exact ⟨trivial, holds_pure ⟨rfl, hw⟩⟩
    · intro _
      exact ⟨rfl, hw⟩
  apply holds_mono hrc
  rintro _ s w ⟨rfl, hw⟩
  exact reply_holds _ _ _ h.ready (hw.imp Or.inr) h.word hn (fun _ => by decide) fun hk => absurd hk hcmd

/-- A reply to KILL has the return code of `nb_kill`, which is 0 or -1. -/
theorem nbKill_reply_holds (h : Inv P s w) (hn : Fresh n s) (hcmd : ¬IsLaunch s.conn.req.cmd) :
    Holds P (do
      let rc ← nbKill
      reply rc 0 0) (fun _ => Polled P n) s w := by
  apply holds_seq (nbKill_holds h.ready h.calm)
  rintro rc s' w' ⟨hkept, hcalm, hended, -⟩
  have h' := h.kept hkept hcalm
  refine reply_holds _ _ _ h'.ready (h'.calm.imp Or.inr) h'.word (hn.kept hkept) ?_ fun _ => hended
  intro hadm
  rw [Admitted, hkept.conn] at hadm
  exact absurd hadm.2 hcmd

theorem serve_holds (h : Inv P s w) (hn : Fresh n s) : Holds P serve (fun _ => Polled P n) s w := by
  apply holds_seq (now_holds stable_calm h.calm)
  rintro now s' w' ⟨rfl, hw⟩
  have h : Inv P s' w' := ⟨h.ready, hw, h.whole, h.word⟩
  apply holds_get
  apply holds_ite
  · exact fun hload => handleLoadRun_holds _ h hn (by rw [hload]; decide)
  intro hload
  apply holds_ite
  · exact fun hrerun => handleRerun_holds h hn (by rw [hrerun]; decide)
  intro hrerun
  apply holds_ite
  · exact fun _ => nbKill_reply_holds h hn fun hl => hl.elim hload hrerun
  intro hkill
  apply holds_ite
  · exact fun _ => handleStatus_holds h hn hkill
  · exact fun _ => reply_holds _ _ _ h.ready (h.calm.imp Or.inr) h.word hn (fun _ => by decide)
      fun hk => absurd hk hkill

theorem pollReady_holds (h : Inv P s w) (hn : Fresh n s) : Holds P pollReady (fun _ => Polled P n) s w := by
  apply holds_get
  apply holds_ite
  · exact fun _ => holds_pure (h.polled hn)
  intro _
  apply holds_ite
  · exact fun _ => serve_holds h hn
  · intro _
    exact reply_holds _ _ _ h.ready (h.calm.imp Or.inr) h.word hn (fun _ => by decide)
      fun _ hrc => absurd hrc (by decide)

theorem admitAck_holds (h : Inv P s w) :
    Holds P admitAck (fun ack s' w' => Kept s s' ∧
      Calm P ((ack.verdict = .ok ∧ IsLaunch s.conn.req.cmd) ∨ Rests P s'.state) s'.powered
        s'.stop w') s w := by
  apply holds_get
  apply holds_ite
  · exact fun _ => nbAdmit_holds _ _ h.ready (h.calm.imp Or.inr)
  · intro _
    apply holds_seq (nbFillAck_holds h.calm)
    rintro ack s' w' ⟨rfl, hw⟩
    exact holds_pure ⟨Kept.refl s', hw.imp fun hok => .inl (.inr (hok.resolve_left fun h => by cases h.1))⟩

theorem keepsWord_ack {ack : Ack} {sent : List Sent}
    (h : ∀ cmd r, Sent.rep cmd true r ∈ sent → IsLaunch cmd → r.rc ≠ -5) :
    ∀ cmd r, Sent.rep cmd true r ∈ sent ++ [.ack ack] → IsLaunch cmd → r.rc ≠ -5 := by
  intro cmd r hmem
  rcases mem_append.1 hmem with hmem | hmem
  · exact h cmd r hmem
  · cases mem_singleton.1 hmem

theorem Fresh.ack {ack : Ack} (h : Fresh n s) :
    ∀ m ∈ (s.sent ++ [Sent.ack ack]).drop n, m.killed = false := by
  intro m hm
  rw [drop_append] at hm
  rcases mem_append.1 hm with hm | hm
  · exact h m hm
  · rw [mem_singleton.1 (mem_of_mem_drop hm)]
    rfl

theorem admit_holds (h : Inv P s w) (hn : Fresh n s) (hwhole : s.conn.hdr.length = sizeofReq) :
    Holds P admitRequest (fun _ s' w' => Inv P s' w' ∧ Fresh n s') s w := by
  apply holds_seq (admitAck_holds h)
  rintro ack s₁ w₁ ⟨hkept, hw⟩
  apply holds_bind
  apply holds_modify
  apply holds_bind
  apply holds_modify
  have hword : KeepsWord s₁ := by
    unfold KeepsWord
    rw [hkept.sent]
    exact h.word
  have hready := hkept.ready.trans h.ready
  apply holds_ite
  · intro hok
    apply holds_seq (now_holds stable_calm hw)
    rintro t s₂ w₂ ⟨rfl, hw⟩
    apply holds_bind
    apply holds_modify
    apply holds_pure
    refine ⟨⟨hready, hw.imp (Or.imp_left fun hadm => ⟨hok, ?_⟩), fun _ => ?_, keepsWord_ack hword⟩,
      (hn.kept hkept).ack⟩
    · have hcmd : IsLaunch s₁.conn.req.cmd := hadm.2
      rwa [hkept.conn] at hcmd
    · change s₁.conn.hdr.length = sizeofReq
      rwa [hkept.conn]
  · intro _
    apply holds_bind
    apply holds_modify
    exact holds_pure ⟨Inv.fresh hready (hw.imp Or.inr) rfl (keepsWord_ack hword), (hn.kept hkept).ack⟩

/-- **The server's part of a round.** -/
theorem serverPoll_holds (h : Inv P s w) (hn : Fresh n s) : Holds P serverPoll (fun _ => Polled P n) s w := by
  have hadm : Holds P admitted (fun _ s' w' => Inv P s' w' ∧ Fresh n s') s w := by
    apply holds_get
    apply holds_ite
    · exact fun hhdr => admit_holds h hn hhdr.2.1
    · exact fun _ => holds_pure ⟨h, hn⟩
  apply holds_get
  apply holds_ite
  · exact fun _ => holds_pure (h.polled hn)
  intro _
  apply holds_seq hadm
  rintro ok s' w' ⟨h', hn'⟩
  apply holds_ite
  · exact fun _ => pollReady_holds h' hn'
  · exact fun _ => holds_pure (h'.polled hn')

theorem fresh_length (s : Sup) : Fresh s.sent.length s := by
  intro m hm
  rw [drop_length] at hm
  cases hm

/-! ## Events -/

/-- A change of the connection that leaves an acknowledged header alone. -/
theorem Inv.conn (h : Inv P s w) {c : Conn} (hacked : c.acked = s.conn.acked)
    (hhdr : s.conn.acked = true → c.hdr = s.conn.hdr) : Inv P { s with conn := c } w where
  ready := h.ready
  calm := by
    refine h.calm.imp (Or.imp_left ?_)
    rintro ⟨ha, hcmd⟩
    have ha : s.conn.acked = true := hacked.symm.trans ha
    refine ⟨ha, ?_⟩
    change IsLaunch (NetbootReq.read c.hdr).cmd at hcmd
    rwa [hhdr ha] at hcmd
  whole := by
    intro ha
    have ha : s.conn.acked = true := hacked.symm.trans ha
    change c.hdr.length = sizeofReq
    rw [hhdr ha]
    exact h.whole ha
  word := h.word

theorem stagePayload_holds (c : Conn) (src : List UInt8) (h : Inv P s w) :
    Holds P (stagePayload c src) (fun _ s' w' => s' = s ∧ Inv P s w') s w := by
  apply whenDo_holds
  · intro _
    apply holds_ask stable_calm h.calm
    rintro w hw b w' rfl
    exact ⟨trivial, rfl, h.ready, hw, h.whole, h.word⟩
  · intro _
    exact ⟨rfl, h⟩

theorem recvPayload_holds (src : List UInt8) (h : Inv P s w) :
    Holds P (recvPayload src) (fun _ => Inv P) s w := by
  apply holds_get
  apply holds_ite
  · intro _
    apply holds_seq (stagePayload_holds s.conn src h)
    rintro _ s' w' ⟨rfl, h⟩
    apply holds_modify
    apply Inv.conn h
    · rfl
    · exact fun _ => rfl
  · exact fun _ => holds_pure h

theorem recvPbuf_holds (src : List UInt8) (h : Inv P s w) : Holds P (recvPbuf src) (fun _ => Inv P) s w := by
  apply holds_get
  apply holds_bind
  apply holds_set
  apply recvPayload_holds
  apply Inv.conn h
  · rfl
  intro hacked
  -- an acknowledged header is whole, and takes no more bytes
  change s.conn.hdr ++ src.take (sizeofReq - s.conn.hdr.length) = s.conn.hdr
  rw [h.whole hacked, Nat.sub_self, take_zero, append_nil]

theorem onRecv_holds (chain : List (List UInt8)) (h : Inv P s w) :
    Holds P (onRecv chain) (fun _ => Inv P) s w := by
  have hfirst : Holds P (whenDo (s.conn.tFirstMs = 0) (do
      let t ← askFor .now
      modify fun s => { s with conn := { s.conn with tFirstMs := t } })) (fun _ => Inv P) s w := by
    apply whenDo_holds
    · intro _
      apply holds_seq (now_holds stable_calm h.calm)
      rintro t s' w' ⟨rfl, hw⟩
      have h' : Inv P s' w' := ⟨h.ready, hw, h.whole, h.word⟩
      apply holds_modify
      apply Inv.conn h'
      · rfl
      · exact fun _ => rfl
    · exact fun _ => h
  apply holds_get
  apply holds_seq hfirst
  intro _ s₁ w₁ h₁
  apply holds_bind
  have hchain : Holds P (chain.forM recvPbuf) (fun _ => Inv P) s₁ w₁ :=
    Code.meets_forM (I := fun _ => Inv P) (fun _ src _ _ h => recvPbuf_holds src h) chain [] h₁
  apply holds_mono hchain
  intro _ s₂ w₂ h₂
  apply holds_modify
  apply Inv.conn h₂
  · rfl
  · exact fun _ => rfl

theorem onAccept_holds (h : Inv P s w) : Holds P onAccept (fun _ => Inv P) s w := by
  apply holds_get
  apply holds_ite
  · intro _
    apply holds_seq (nbFillAck_holds h.calm)
    rintro ack s' w' ⟨rfl, hw⟩
    exact holds_modify ⟨h.ready, hw.imp Or.inl, h.whole, keepsWord_ack h.word⟩
  · intro _
    exact holds_set (Inv.fresh h.ready (h.calm.imp Or.inr) rfl h.word)

/-- **Every event keeps the invariant.** -/
theorem event_holds (e : Event) (h : Inv P s w) : Holds P e.code (fun _ => Inv P) s w := by
  cases e with
  | accept => exact onAccept_holds h
  | recv chain => exact onRecv_holds chain h
  | closed =>
    apply holds_get
    apply holds_ite
    · exact fun _ => holds_pure h
    · exact fun _ => connReset_holds h
  | err => exact connReset_holds h
  | round =>
    apply holds_seq (serverPoll_holds h (fresh_length s))
    rintro _ s' w' ⟨h', -⟩
    apply holds_mono (watchdog_holds h'.ready h'.calm)
    rintro _ s'' w'' ⟨hkept, hcalm⟩
    exact h'.kept hkept hcalm

end Server

end AieHlc.Netboot
