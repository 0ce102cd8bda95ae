import AieHlc.Shim.Apply

/-!
# Opening and closing a window

Between two windows the segments are empty, whatever happened before (`Idle`). A window
begins with the segments empty or holding the return route; the route is then taken from
the table, captured, or written directly.

* `Idle`: the state between two windows, kept by every window (`after_idle`).
* `Opened`: the state a window's calls start from.
* `begin_opens`: how a window opens.
-/

namespace AieHlc.Shim

open List AieHlc.Word AieHlc.Packet

/-- Between two windows. -/
structure Idle (s : Sb) : Prop where
  inactive : s.active = false
  empty : s.seg.Hold fun _ => []
  span : ∀ F, s.f = some F → s.lo = F.lo ∧ s.hi = F.hi

/-- A window of the fabric is open, and no call was made yet. -/
structure Opened (F : Fabric) (t : Option Table) (s : Sb) : Prop where
  active : s.active = true
  lo : s.lo = F.lo
  hi : s.hi = F.hi
  fabric : s.f = some F
  aot : s.aot = t
  recs : s.recs = []
  fresh : s.aotFailed = false

section Begin

variable {D : Driver} {E : Env} {t : Option Table} {F : Fabric} {s : Sb}

theorem powerOn_idle (p : ℕ → ℕ → ℕ) : Idle (powerOn p) :=
  ⟨rfl, resetSegs_hold p, fun F h => absurd h (by intro h; cases h)⟩

/-- How the return route is set up: from the table, captured, or written directly. -/
theorem rtSbRoute_cases (t : Option Table) (F : Fabric) (s : Sb) :
    (∃ a st, t = some a ∧ seedSegs a (s.enter F) = some st ∧
      rtSbRoute t F (s.enter F) = { s.enter F with seg := st }) ∨
    (∃ r, appendRecords F.lo F.hi F.ret (s.enter F).seg = some r ∧
      rtSbRoute t F (s.enter F) = { s.enter F with seg := r.1 }) ∨
    (appendRecords F.lo F.hi F.ret (s.enter F).seg = none ∧
      rtSbRoute t F (s.enter F) = { s.enter F with out := s.out ++ [.route F.ret] }) := by
  unfold rtSbRoute
  cases hseed : t.bind (seedSegs · (s.enter F)) with
  | some st =>
    obtain ⟨a, ha, hst⟩ := Option.bind_eq_some_iff.1 hseed
    exact .inl ⟨a, st, ha, hst, rfl⟩
  | none =>
    refine .inr ?_
    dsimp only
    cases hcap : appendRecords (s.enter F).lo (s.enter F).hi F.ret (s.enter F).seg with
    | some r => exact .inl ⟨r, hcap, rfl⟩
    | none => exact .inr ⟨hcap, rfl⟩

/-- What `rt_sb_prepare` can leave: nothing done, the window entered on a routed row, the
route set up, or the window entered and the route failed. -/
theorem rtSbPrepare_cases (E : Env) (t : Option Table) (F : Fabric) (s : Sb) :
    rtSbPrepare E t F s = s ∨
    (s.routed = some F ∧ rtSbPrepare E t F s = { s.enter F with armed := E.armOk }) ∨
    rtSbPrepare E t F s =
      { rtSbRoute t F (s.enter F) with routed := some F, routeNow := true, armed := E.armOk } ∨
    (s.routed ≠ some F ∧ rtSbPrepare E t F s = s.enter F) := by
  unfold rtSbPrepare
  split
  · exact .inl rfl
  · split
    · rename_i h
      exact .inr (.inl ⟨h, rfl⟩)
    · rename_i h
      split
      · exact .inr (.inr (.inl rfl))
      · exact .inr (.inr (.inr ⟨h, rfl⟩))

/-- `rt_sb_begin` after `rt_sb_prepare`. -/
def opening (t : Option Table) (F : Fabric) (q : Sb) : Sb :=
  let on := q.routed = some F ∧ q.f = some F
  { q with active := on, aot := if on then t else none, recs := [], aotFailed := false }

/-- The outcome of `rt_sb_begin` on a state `q` of which it only sets the window's flags. -/
theorem opening_on {q : Sb} (hr : q.routed = some F) (hf : q.f = some F) (hlo : q.lo = F.lo)
    (hhi : q.hi = F.hi) :
    Opened F t (opening t F q) := by
  have hon : q.routed = some F ∧ q.f = some F := ⟨hr, hf⟩
  exact ⟨decide_eq_true hon, hlo, hhi, hf, if_pos hon, rfl, rfl⟩

theorem opening_off {q : Sb} (hoff : ¬(q.routed = some F ∧ q.f = some F)) (hempty : q.seg.Hold fun _ => [])
    (hspan : ∀ G, q.f = some G → q.lo = G.lo ∧ q.hi = G.hi) :
    Idle (opening t F q) ∧ (opening t F q).aot = none :=
  ⟨⟨decide_eq_false hoff, hempty, hspan⟩, if_neg hoff⟩

theorem begin_eq (hs : s.active = false) : rtSbBegin E t F s =
    opening t F (if ¬s.armed ∨ s.f ≠ some F then rtSbPrepare E t F { s with routeNow := false }
      else { s with routeNow := false }) := by
  unfold rtSbBegin
  rw [hs]
  rfl

/-- The ways a window opens. -/
inductive Opens (t : Option Table) (F : Fabric) (s o : Sb) : Prop where
  | closed (idle : Idle o) (aot : o.aot = none) (route : o.routeNow = false) (out : o.out = s.out)
  | plain (opened : Opened F t o) (route : o.routeNow = false) (empty : o.seg.Hold fun _ => [])
    (out : o.out = s.out)
  | seeded (opened : Opened F t o) (route : o.routeNow = true) (a : Table) (table : t = some a) (q : Sb)
      (seeds : seedSegs a (q.enter F) = some o.seg) (out : o.out = s.out)
  | captured (opened : Opened F t o) (route : o.routeNow = true) (p : ℕ → ℕ → ℕ) (pos : List ℕ)
      (seg : appendRecords F.lo F.hi F.ret (resetSegs p) = some (o.seg, pos)) (out : o.out = s.out)
  | direct (opened : Opened F t o) (route : o.routeNow = true) (p : ℕ → ℕ → ℕ)
      (fails : appendRecords F.lo F.hi F.ret (resetSegs p) = none) (empty : o.seg.Hold fun _ => [])
      (out : o.out = s.out ++ [.route F.ret])

namespace Opens

variable {t : Option Table} {F : Fabric} {s o : Sb}

theorem closed_of_inactive (h : Opens t F s o) (hact : o.active = false) :
    o.aot = none ∧ o.routeNow = false ∧ o.out = s.out := by
  cases h with
  | closed _ aot route out => exact ⟨aot, route, out⟩
  | plain opened | seeded opened | captured opened | direct opened =>
    exact absurd (hact.symm.trans opened.active) Bool.false_ne_true

theorem opened_of_active (h : Opens t F s o) (hact : o.active = true) : Opened F t o := by
  cases h with
  | closed idle => exact absurd (idle.inactive.symm.trans hact) Bool.false_ne_true
  | plain opened | seeded opened | captured opened | direct opened => exact opened

theorem quiet (h : Opens t F s o) : ∃ os, o.out = s.out ++ os ∧ ∀ b, .batch b ∉ os := by
  cases h with
  | closed _ _ _ out | plain _ _ _ out | seeded _ _ _ _ _ _ out | captured _ _ _ _ _ out =>
    exact ⟨[], out.trans (append_nil _).symm, fun _ => not_mem_nil⟩
  | direct _ _ _ _ _ out => exact ⟨_, out, fun b hb => by cases mem_singleton.1 hb⟩

end Opens

theorem opens_same {q : Sb} (hempty : q.seg.Hold fun _ => [])
    (hspan : ∀ G, q.f = some G → q.lo = G.lo ∧ q.hi = G.hi)
    (hroute : q.routeNow = false) (hout : q.out = s.out) : Opens t F s (opening t F q) := by
  by_cases hon : q.routed = some F ∧ q.f = some F
  · obtain ⟨hlo, hhi⟩ := hspan F hon.2
    exact .plain (opening_on hon.1 hon.2 hlo hhi) hroute hempty hout
  · obtain ⟨hidle, haot⟩ := opening_off (t := t) hon hempty hspan
    exact .closed hidle haot hroute hout

theorem opens_entered {q : Sb} (hempty : q.seg.Hold fun _ => []) (hf : q.f = some F) (hlo : q.lo = F.lo)
    (hhi : q.hi = F.hi) (hroute : q.routeNow = false) (hout : q.out = s.out) :
    Opens t F s (opening t F q) := by
  refine opens_same hempty (fun G hG => ?_) hroute hout
  rw [hf] at hG
  cases hG
  exact ⟨hlo, hhi⟩

/-- **How a window opens** from an idle state. -/
theorem begin_opens (hs : Idle s) : Opens t F s (rtSbBegin E t F s) := by
  rw [begin_eq hs.inactive]
  split
  · rcases rtSbPrepare_cases E t F { s with routeNow := false } with h | ⟨-, h⟩ | h | ⟨-, h⟩
    · rw [h]
      exact opens_same hs.empty hs.span rfl rfl
    · rw [h]
      exact opens_entered (resetSegs_hold _) rfl rfl rfl rfl rfl
    · rw [h]
      rcases rtSbRoute_cases t F { s with routeNow := false } with ⟨a, st, ha, hst, hr⟩
        | ⟨r, hr', hr⟩ | ⟨hf, hr⟩
      · rw [hr]
        exact .seeded (opening_on rfl rfl rfl rfl) rfl a ha _ hst rfl
      · rw [hr]
        exact .captured (opening_on rfl rfl rfl rfl) rfl _ r.2 hr' rfl
      · rw [hr]
        exact .direct (opening_on rfl rfl rfl rfl) rfl _ hf (resetSegs_hold _) rfl
    · rw [h]
      exact opens_entered (resetSegs_hold _) rfl rfl rfl rfl rfl
  · exact opens_same hs.empty hs.span rfl rfl

end Begin

/-! ### The whole window -/

section Window

variable {D : Driver} {E : Env} {L : Launch} {s : Sb}

theorem rtSbDo_frame (D : Driver) (E : Env) (s : Sb) (c : Call) : ∃ st armed out recs failed,
    rtSbDo D E s c = { s with seg := st, armed := armed, out := out, recs := recs, aotFailed := failed } := by
  rcases rtSbDo_cases D E s c with ⟨-, h⟩ | ⟨-, -, h, -⟩ | ⟨-, -, h⟩
  · obtain ⟨st, armed, out, hc⟩ := rtSbCall_frame D E s c
    exact ⟨st, armed, out, _, _, h.trans hc⟩
  · exact ⟨_, _, _, _, _, h⟩
  · obtain ⟨st, armed, out, hr⟩ := replay_frame D E s.recs { s with aotFailed := true }
    obtain ⟨st', armed', out', hc⟩ := rtSbCall_frame D E (replay D E s) c
    refine ⟨st', armed', out', s.recs, true, ?_⟩
    rw [h, hc, replay, hr]

theorem calls_frame (D : Driver) (E : Env) (calls : List Call) : ∀ s : Sb, ∃ st armed out recs failed,
    calls.foldl (rtSbDo D E) s =
      { s with seg := st, armed := armed, out := out, recs := recs, aotFailed := failed } := by
  induction calls with
  | nil => exact fun s => ⟨_, _, _, _, _, rfl⟩
  | cons c calls ih =>
    intro s
    obtain ⟨st, armed, out, recs, failed, h⟩ := rtSbDo_frame D E s c
    obtain ⟨st', armed', out', recs', failed', h'⟩ := ih (rtSbDo D E s c)
    refine ⟨st', armed', out', recs', failed', ?_⟩
    rw [foldl_cons, h', h]

/-- The commit's last decision changes the segments, the chain, the log and the notes. -/
theorem rtSbResolve_frame (D : Driver) (E : Env) (s : Sb) : ∃ st armed out failed,
    rtSbResolve D E s = { s with seg := st, armed := armed, out := out, aotFailed := failed } := by
  unfold rtSbResolve
  split
  · exact ⟨_, _, _, _, rfl⟩
  · split
    · exact ⟨_, _, _, _, rfl⟩
    · split
      · exact ⟨_, _, _, _, rfl⟩
      · unfold aotFail
        split
        · exact ⟨_, _, _, _, rfl⟩
        · obtain ⟨st, armed, out, h⟩ := replay_frame D E s.recs { s with aotFailed := true }
          exact ⟨st, armed, out, true, h⟩

theorem calls_closed (calls : List Call) : ∀ {s : Sb}, s.active = false → s.aot = none →
    calls.foldl (rtSbDo D E) s = { s with out := s.out ++ calls.map .direct } := by
  induction calls with
  | nil =>
    intro s _ _
    rw [map_nil, append_nil]
    rfl
  | cons c calls ih =>
    intro s hact haot
    have hout : s.inWindow c = false := by rw [Sb.inWindow, hact]; rfl
    have hdo : rtSbDo D E s c = { s with out := s.out ++ [.direct c] } := by
      rcases rtSbDo_cases D E s c with ⟨-, h⟩ | ⟨-, hin, -⟩ | ⟨-, hin, -⟩
      · rw [h, rtSbCall_outside hout]
      · rw [hout] at hin
        exact absurd hin Bool.false_ne_true
      · rw [hout] at hin
        exact absurd hin Bool.false_ne_true
    rw [foldl_cons, hdo, ih (s := { s with out := s.out ++ [.direct c] }) hact haot]
    simp only [map_cons, append_assoc, singleton_append]

theorem commit_closed (h : s.active = false) : rtSbCommit D E s = s := by
  unfold rtSbCommit
  rw [h]
  rfl

theorem run_closed (hact : s.active = false) (haot : s.aot = none) (calls : List Call) :
    rtSbCommit D E (calls.foldl (rtSbDo D E) s) = { s with out := s.out ++ calls.map .direct } := by
  rw [calls_closed calls hact haot]
  exact commit_closed (s := { s with out := s.out ++ calls.map .direct }) hact

theorem commit_open (h : s.active = true) :
    rtSbCommit D E s = { rtSbKick E (rtSbResolve D E s) with active := false, aot := none } := if_pos h

theorem commit_idle {F : Fabric} {t : Option Table} (ho : Opened F t s) (calls : List Call) :
    Idle (rtSbCommit D E (calls.foldl (rtSbDo D E) s)) := by
  obtain ⟨st, armed, out, recs, failed, h⟩ := calls_frame D E calls s
  obtain ⟨st', armed', out', failed', h'⟩ := rtSbResolve_frame D E (calls.foldl (rtSbDo D E) s)
  have hact : (calls.foldl (rtSbDo D E) s).active = true := by rw [h]; exact ho.active
  rw [commit_open hact, h', h]
  refine ⟨rfl, rtSbKick_hold, fun G hG => ?_⟩
  have hG' : s.f = some G := hG
  rw [ho.fabric] at hG'
  cases hG'
  exact ⟨ho.lo, ho.hi⟩

/-- **Every window ends idle.** -/
theorem Launch.run_idle (hs : Idle s) : Idle (L.run D s) := by
  unfold Launch.run Launch.called Launch.opened
  have ho := begin_opens (E := L.env) (t := L.table D) (F := L.F) hs
  cases ho with
  | closed idle aot _ _ =>
    rw [run_closed idle.inactive aot]
    exact ⟨idle.inactive, idle.empty, idle.span⟩
  | plain opened => exact commit_idle opened L.calls
  | seeded opened => exact commit_idle opened L.calls
  | captured opened => exact commit_idle opened L.calls
  | direct opened => exact commit_idle opened L.calls

/-- **The state between two windows is idle**, after any history. -/
theorem after_idle (D : Driver) (p : ℕ → ℕ → ℕ) (hist : List Launch) : Idle (after D p hist) := by
  have hrun : ∀ (hist : List Launch) (s : Sb), Idle s → Idle (hist.foldl (fun s L => L.run D s) s) := by
    intro hist
    induction hist with
    | nil => exact fun s hs => hs
    | cons L hist ih => exact fun s hs => ih (L.run D s) (L.run_idle hs)
  exact hrun hist (powerOn p) (powerOn_idle p)

end Window

end AieHlc.Shim
