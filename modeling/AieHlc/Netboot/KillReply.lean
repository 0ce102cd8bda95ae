import AieHlc.Netboot.CoreSafety

/-!
# What an answer to KILL is worth

`nb_kill` stops the core only in a run, and says in every other state that there was nothing to
stop. When the watchdog ends a run and the platform manager refuses to stop the core, the run is
over for the supervisor and the app goes on; the next KILL is then answered with success. So is one
after an app was taken for parked by the mark of an earlier one.

* `KillHonest`: a KILL that is answered with success leaves a core at rest, in every run of a loop.
* `kill_honest`: **that is so in all runs** in which the core is stopped when it is to be, and not
  while the mailbox has a mark.
* `not_kill_honest_refusing`: and not where every stop may be refused.
-/

namespace AieHlc.Netboot

open AieHlc.Prog

/-- The surroundings, with no condition on the requests. -/
def observed (E : Surroundings World Req Ans) : Surroundings World Req Ans :=
  { E with allowed := fun _ _ _ => True }

/-- `server_poll`, on the variables; a reply is the last thing it does. -/
def polled (s : Sup) : Ask Req Ans Sup := serverPoll s >>= fun r => pure r.2

/-- In every run, the core is at rest when a KILL is answered with success. -/
def KillHonest (M : Reactive Sup World Event Req Ans) (ready : Bool) : Prop :=
  ∀ s w, M.Reach { ready } {} (.ret s, w) →
    (polled s).wp (observed M.surroundings)
      (fun s' w' => (∃ m ∈ s'.sent.drop s.sent.length, m.killed = true) →
      ∀ w'', Relation.ReflTransGen CoreStep w' w'' → w''.core.atRest = true) w

/-- **KILL replies are honest** in every run whose last attempts to stop the core are not refused,
and whose stops, as far as they can be undone, are carried out only while the mailbox has no mark. -/
theorem kill_honest (P : Policy) : KillHonest (heededLoop ⟨P, True⟩) P.ready := by
  intro s w hreach
  have hinv := (inv_of_reach hreach).2 s rfl
  apply Ask.wp_bind
  refine Ask.wp_mono ?_ (Ask.wp_forget (serverPoll_holds hinv (fresh_length s)))
  intro r w' hr hkilled w'' hstar
  have hquiet := hr.inv.calm.quiet (.inr ⟨trivial, hr.ended hkilled⟩)
  exact (stable_quiet.star hquiet hstar).atRest

/-! ## A run that outlives its end -/

/-- A platform manager that starts the core and refuses every stop. -/
def refusing : Policy where
  ready := true
  wake := true
  stop _ := false
  release _ := false

/-- What a program ends with holds along the answers that are written down. -/
theorem wp_of_answers {P : Policy} {R : Sup → World → Prop} {l : List ℕ} {c c' : Config}
    (hplay : play P (l.map .answer) c = some c') (h : c.1.wp (observed (surroundings P)) R c.2) :
    c'.1.wp (observed (surroundings P)) R c'.2 := by
  induction l generalizing c with
  | nil =>
    obtain rfl := Option.some.inj hplay
    exact h
  | cons n l ih =>
    obtain ⟨c₁, h₁, h₂⟩ := Option.bind_eq_some_iff.1 hplay
    apply ih h₂
    obtain ⟨p, w⟩ := c
    cases p with
    | ret s => cases h₁
    | ask q k =>
      obtain ⟨⟨b, w'⟩, hb, rfl⟩ := Option.map_eq_some_iff.1 h₁
      exact (h w .refl b w' (act_of_answerOf hb)).2

/-- An app is loaded, the watchdog ends its run in vain, and a KILL arrives. -/
def overdueRun : List Choice :=
  exchange (requestBytes NETBOOT_CMD_LOAD_RUN 1 noDigest ++ [0]) [5, 0] [6, 0, 6, 1, 6, 1, 7, 7, 0, 7] ++
  -- the watchdog finds no mark, and the three stops are refused
  [Choice.event Event.round] ++ [0, 8 + NB_DEFAULT_TIMEOUT_MS, 0, 0, 0].map Choice.answer ++
  [Choice.event Event.accept, Choice.event (Event.recv [requestBytes NETBOOT_CMD_KILL 0 noDigest]),
    Choice.answer 8]

/-- The KILL is answered with success while the app runs. -/
def deceived : Option Config → Bool
  | some (.ret s, w) =>
    match play refusing [Choice.answer 9] (polled s, w) with
    | some (.ret s', w') => (s'.sent.drop s.sent.length).any Sent.killed && !w'.core.atRest
    | _ => false
  | _ => false

theorem overdueRun_deceived : deceived (play refusing overdueRun (.ret { ready := true }, {})) = true := by
  decide +kernel

/-- **Where stops are refused, a KILL is answered with success while an app runs.** -/
theorem not_kill_honest_refusing : ¬KillHonest (mainLoop refusing) true := by
  have hrun := overdueRun_deceived
  unfold deceived at hrun
  split at hrun
  · rename_i s w hplay
    split at hrun
    · rename_i s' w' hpoll
      intro hhonest
      simp only [Bool.and_eq_true, Bool.not_eq_true'] at hrun
      have hrest := wp_of_answers (l := [9]) hpoll (hhonest s w (steps_of_play hplay))
        (List.any_eq_true.1 hrun.1) w' .refl
      rw [hrun.2] at hrest
      cases hrest
    · cases hrun
  · cases hrun

end AieHlc.Netboot
