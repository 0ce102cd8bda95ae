import AieHlc.Shim.Table
import AieHlc.Packet.RoundTrip

/-!
# Capture and rollback

A driver call inside the shim-BD window runs against a backend that records its register writes into the
column segments. If the call fails, or asks the backend for anything but a write, the segments are put back
from a snapshot that holds their counters and one word each: the control header of the last access.

* `rtSbRecord`, `captureCall`: the writes of one call; a failed write leaves the words it wrote before.
* `capOn`, `capOff`: the snapshot and the rollback.
* `Reached`: the states of the window after captured calls.
* `Seg.Holds.after`: a recorded write touches nothing below the snapshot but the last header.
* `rollback_restores`: the rollback restores every segment, for all that can be done with it later.
-/

namespace AieHlc.Shim

open Function AieHlc.Word AieHlc.Prog AieHlc.Packet

/-- What a driver call asks the backend for: a write of some words, or something it does not offer (a read,
a masked write, a poll, a block set). -/
inductive BackendOp where
  | write (col row off : ℕ) (data : List ℕ)
  | other

/-- The columns of the window. -/
structure Span where
  lo : ℕ
  hi : ℕ
  fits : hi - lo < MAX_COLS

/-- The state of an encoder call, also of a failed one. -/
def Seg.after (m : SegM Unit) (s : Seg) : Seg × Bool :=
  match m s with
  | .ok _ s' => (s', true)
  | .error _ s' => (s', false)

/-- `rt_sb_record` and the other functions of the backend: the segments, and whether it returned `XAIE_OK`. -/
def rtSbRecord (w : Span) (st : Segs) : BackendOp → Segs × Bool
  | .other => (st, false)
  | .write col row off data =>
    if row ≠ 0 ∨ col < w.lo ∨ col > w.hi then (st, false)
    else
      let k := col - w.lo
      let r := Seg.after (rtCpeSegWrite SEG_WORDS (acrShimRowId k) off data) (st k)
      (update st k r.1, r.2)

/-- The recorded part of a call; `bad` is set by any operation that fails. -/
def captureCall (w : Span) (st : Segs) (ops : List BackendOp) : Segs × Bool :=
  ops.foldl (fun s op => let r := rtSbRecord w s.1 op; (r.1, s.2 || !r.2)) (st, false)

/-- The snapshot of a segment, with `last_ctrl`. -/
structure Snap where
  pw : ℕ
  last : ℕ
  lastCtrl : ℕ

/-- `rt_sb_cap_on`. -/
def capOn (st : Segs) (k : ℕ) : Snap := ⟨(st k).pw, (st k).last, (st k).p (st k).last⟩

/-- The loop of `rt_sb_cap_off` over the columns. -/
def rollback (snap : ℕ → Snap) (st : Segs) : Segs := fun k =>
  if k < MAX_COLS then
    ⟨(snap k).pw, (snap k).last,
      if (snap k).last ≠ RT_CPE_NONE then update (st k).p (snap k).last (snap k).lastCtrl else (st k).p⟩
  else st k

/-- Finish and reset all segments, as a kick does. -/
def flush (st : Segs) : Segs := fun k => rtCpeSegReset (rtCpeSegFinish (st k)).2.p

/-- `rt_sb_cap_off`, for a call that returned `rcOk`: after a rollback it flushes. -/
def capOff (snap : ℕ → Snap) (r : Segs × Bool) (rcOk : Bool) : Segs :=
  if rcOk && !r.2 then r.1 else flush (rollback snap r.1)

/-- The states of a window that captured calls lead to. -/
inductive Reached (w : Span) : Segs → Prop where
  | reset (p : ℕ → ℕ → ℕ) : Reached w (resetSegs p)
  | call {st : Segs} (h : Reached w st) (ops : List BackendOp) (rcOk : Bool) :
      Reached w (capOff (capOn st) (captureCall w st ops) rcOk)
  | kick {st : Segs} (h : Reached w st) : Reached w (flush st)

/-- What can be done with the segments later: record an operation, or send them. -/
inductive Later where
  | record (op : BackendOp)
  | kick

/-- What is seen of it: the return code, or the length and the words of every segment. -/
inductive Seen where
  | rc (ok : Bool)
  | sent (segs : List (ℕ × List ℕ))

def sentOf (s : Seg) : ℕ × List ℕ := ((rtCpeSegFinish s).1, (rtCpeSegFinish s).2.words)

def onward (w : Span) : Segs → List Later → List Seen
  | _, [] => []
  | st, .record op :: ls => .rc (rtSbRecord w st op).2 :: onward w (rtSbRecord w st op).1 ls
  | st, .kick :: ls => .sent ((List.range MAX_COLS).map fun k => sentOf (st k)) :: onward w (flush st) ls

/-! ### One recorded write -/

section Column

variable {cap sid : ℕ} {s t : Seg} {cs : List (Chunk ℕ)}

/-- `t` came from `s` by recorded words: below the end of `s` only its last header may have changed. -/
structure Below (s t : Seg) : Prop where
  pw : s.pw ≤ t.pw
  kept : ∀ i < s.pw, i ≠ s.last → t.p i = s.p i
  last : t.last = s.last ∨ s.pw ≤ t.last

theorem Below.refl (s : Seg) : Below s s := ⟨le_rfl, by simp, by simp⟩

theorem Below.push (hb : Below s t) (hpw : t.pw + 1 < 2 ^ 32) (v : ℕ) : Below s (t.push v) where
  pw := by rw [push_pw hpw]; exact hb.pw.trans (Nat.le_succ _)
  kept i hi hne := by
    have hlt := hi.trans_le hb.pw
    simp [Seg.push, update_of_ne hlt.ne, hb.kept i hi hne]
  last := hb.last

theorem Below.extend (hb : Below s t) (hpw : t.pw + 1 < 2 ^ 32) (d : ℕ) : Below s (t.extend d) := by
  have hstore : ∀ v, Below s (t.store t.last v) := by
    intro v
    refine ⟨hb.pw, fun i hi hne => ?_, hb.last⟩
    -- the header that is rewritten is the last one of `s`, or lies above it
    have hil : i ≠ t.last := by
      rcases hb.last with hl | hl <;> omega
    simp [Seg.store, update_of_ne hil, hb.kept i hi hne]
  exact (hstore _).push hpw d

theorem Below.start (hb : Below s t) (hpw : t.pw + 3 < 2 ^ 32) (h off d : ℕ) : Below s (t.start h off d) := by
  have hp1 : (t.push h).pw = t.pw + 1 := push_pw (by omega) _
  have h1 := hb.push (by omega) h
  have h2 : Below s { t.push h with last := (t.push h).pw } := ⟨h1.pw, h1.kept, .inr h1.pw⟩
  have h3 := h2.push (by simp only [hp1]; omega) (cpeCtrlWord (off &&& 0xFFFFF))
  exact h3.push (by rw [push_pw (by simp only [hp1]; omega)]; simp only [hp1]; omega) d

/-- The words of one write, up to the first that finds no room. -/
def putSome (cap : ℕ) : List (Chunk ℕ) → List (ℕ × ℕ) → List (Chunk ℕ) × Bool
  | cs, [] => (cs, true)
  | cs, w :: ws => if (slots cs).length + 5 ≤ cap then putSome cap (putWord cs w) ws else (cs, false)

/-- **One word**: it is accepted exactly if it finds room; otherwise nothing changes. -/
theorem segWord_cases (hcap : cap ≤ 2 ^ 32 - 4) (ht : t.Holds cap (cpeStreamHdr sid) cs) (off d : ℕ) :
    (slots cs).length + 5 ≤ cap ∧ (∃ t', segWord cap (cpeStreamHdr sid) off d t = .ok () t' ∧
        t'.Holds cap (cpeStreamHdr sid) (putWord cs (off, d)) ∧ ∀ s, Below s t → Below s t') ∨
      ¬(slots cs).length + 5 ≤ cap ∧ segWord cap (cpeStreamHdr sid) off d t = .error () t := by
  have hroom := ht.room
  have hpw := ht.pw_eq
  by_cases hfit : (slots cs).length + 5 ≤ cap
  · refine .inl ⟨hfit, ?_⟩
    have hle : ¬u32 (t.pw + 5) > cap := by rw [u32_eq (by omega)]; omega
    by_cases hc : t.continues off
    · have hok : segWord cap (cpeStreamHdr sid) off d t = .ok () (t.extend d) :=
        bind_ok.2 ⟨t, t, rfl, by rw [if_neg hle, if_pos hc]; rfl⟩
      exact ⟨_, hok, ht.word hcap hok, fun s hb => hb.extend (by omega) d⟩
    · have hok : segWord cap (cpeStreamHdr sid) off d t = .ok () (t.start (cpeStreamHdr sid) off d) :=
        bind_ok.2 ⟨t, t, rfl, by rw [if_neg hle, if_neg hc]; rfl⟩
      exact ⟨_, hok, ht.word hcap hok, fun s hb => hb.start (by omega) _ off d⟩
  · refine .inr ⟨hfit, ?_⟩
    have hgt : u32 (t.pw + 5) > cap := by rw [u32_eq (by omega)]; omega
    show (if u32 (t.pw + 5) > cap then throw () else if t.continues off then set (t.extend d)
      else set (t.start (cpeStreamHdr sid) off d) : SegM Unit) t = _
    rw [if_pos hgt]
    rfl

/-- **One write** follows `putSome`, and keeps what lies below. -/
theorem Seg.Holds.after (hcap : cap ≤ 2 ^ 32 - 4) (ds : List ℕ) (off : ℕ)
    (ht : t.Holds cap (cpeStreamHdr sid) cs) :
    (Seg.after (segWords cap (cpeStreamHdr sid) off ds) t).1.Holds cap (cpeStreamHdr sid)
        (putSome cap cs (wordsFrom off ds)).1 ∧
      (Seg.after (segWords cap (cpeStreamHdr sid) off ds) t).2 = (putSome cap cs (wordsFrom off ds)).2 ∧
      ∀ s, Below s t → Below s (Seg.after (segWords cap (cpeStreamHdr sid) off ds) t).1 := by
  induction ds generalizing off t cs with
  | nil => exact ⟨ht, rfl, fun s hb => hb⟩
  | cons d ds ih =>
    rcases segWord_cases hcap ht off d with ⟨hfit, t', hw, ht', hb'⟩ | ⟨hfit, hw⟩
    · have hrun : Seg.after (segWords cap (cpeStreamHdr sid) off (d :: ds)) t =
          Seg.after (segWords cap (cpeStreamHdr sid) (u32 (off + 4)) ds) t' := by
        simp [Seg.after, segWords, bind, EStateM.bind, hw]
      obtain ⟨h1, h2, h3⟩ := ih _ ht'
      rw [hrun, wordsFrom, putSome, if_pos hfit]
      exact ⟨h1, h2, fun s hb => h3 s (hb' s hb)⟩
    · have hrun : Seg.after (segWords cap (cpeStreamHdr sid) off (d :: ds)) t = (t, false) := by
        simp [Seg.after, segWords, bind, EStateM.bind, hw]
      rw [hrun, wordsFrom, putSome, if_neg hfit]
      exact ⟨ht, rfl, fun s hb => hb⟩

/-- **Putting back** the counters and the last header restores what the segment held. -/
theorem Below.restore {h : ℕ} (hb : Below s t) (hcap : cap ≤ 2 ^ 32 - 4) (hs : s.Holds cap h cs) :
    Seg.Holds cap h ⟨s.pw, s.last,
      if s.last ≠ RT_CPE_NONE then update t.p s.last (s.p s.last) else t.p⟩ cs := by
  refine ⟨?_, hs.valid, hs.last, hs.room⟩
  rw [← hs.words]
  apply List.map_congr_left
  intro i hi
  have hi : i < s.pw := List.mem_range.1 hi
  have hroom := hs.room
  by_cases hil : i = s.last
  · have hne : s.last ≠ RT_CPE_NONE := by
      rw [RT_CPE_NONE]
      omega
    simp [hne, hil]
  · by_cases hne : s.last = RT_CPE_NONE
    · simp [hne, hb.kept i hi hil]
    · simp [hne, update_of_ne hil, hb.kept i hi hil]

end Column

/-! ### The window -/

section Window

variable {w : Span} {st st' : Segs} {cs : ℕ → List (Chunk ℕ)}

/-- The accesses after an operation of the backend, and its return code. -/
def recordChunks (w : Span) (cs : ℕ → List (Chunk ℕ)) : BackendOp → (ℕ → List (Chunk ℕ)) × Bool
  | .other => (cs, false)
  | .write col row off data =>
    if row ≠ 0 ∨ col < w.lo ∨ col > w.hi then (cs, false)
    else
      let r := putSome SEG_WORDS (cs (col - w.lo)) (wordsFrom off data)
      (update cs (col - w.lo) r.1, r.2)

/-- **The backend** follows `recordChunks`, keeps what lies below, and leaves other columns alone. -/
theorem record_holds (hst : st.Hold cs) (op : BackendOp) :
    (rtSbRecord w st op).1.Hold (recordChunks w cs op).1 ∧ (rtSbRecord w st op).2 = (recordChunks w cs op).2 ∧
      ∀ k, (∀ s, Below s (st k) → Below s ((rtSbRecord w st op).1 k)) ∧
        (MAX_COLS ≤ k → (rtSbRecord w st op).1 k = st k) := by
  cases op with
  | other => exact ⟨hst, rfl, fun k => ⟨fun s hb => hb, fun _ => rfl⟩⟩
  | write col row off data =>
    by_cases hout : row ≠ 0 ∨ col < w.lo ∨ col > w.hi
    · rw [rtSbRecord, recordChunks, if_pos hout, if_pos hout]
      exact ⟨hst, rfl, fun k => ⟨fun s hb => hb, fun _ => rfl⟩⟩
    · obtain ⟨h1, h2, h3⟩ := Seg.Holds.after seg_words_le data off (hst (col - w.lo))
      have hcol : col - w.lo < MAX_COLS := by
        have := w.fits
        omega
      rw [rtSbRecord, recordChunks, if_neg hout, if_neg hout]
      refine ⟨fun k => ?_, h2, fun k => ?_⟩
      · by_cases hk : k = col - w.lo
        · subst hk
          simp only [update_self]
          exact h1
        · simpa only [update_of_ne hk] using hst k
      · by_cases hk : k = col - w.lo
        · subst hk
          simp only [update_self]
          exact ⟨h3, fun hge => absurd hcol (by omega)⟩
        · simp only [update_of_ne hk]
          exact ⟨fun s hb => hb, fun _ => trivial⟩

theorem captureCall_holds (ops : List BackendOp) :
    ∀ {st : Segs} {bad : Bool} {cs : ℕ → List (Chunk ℕ)}, st.Hold cs →
    let r := ops.foldl (fun s op => let r := rtSbRecord w s.1 op; (r.1, s.2 || !r.2)) (st, bad)
    (∃ cs', r.1.Hold cs') ∧ ∀ k, (∀ s, Below s (st k) → Below s (r.1 k)) ∧ (MAX_COLS ≤ k → r.1 k = st k) := by
  induction ops with
  | nil => exact fun hst => ⟨⟨_, hst⟩, fun k => ⟨fun s hb => hb, fun _ => rfl⟩⟩
  | cons op ops ih =>
    intro st bad cs hst
    obtain ⟨h1, -, h3⟩ := record_holds (w := w) hst op
    obtain ⟨hhold, hk⟩ := @ih _ (bad || !(rtSbRecord w st op).2) _ h1
    refine ⟨hhold, fun k => ⟨fun s hb => (hk k).1 s ((h3 k).1 s hb), fun hge => ?_⟩⟩
    exact ((hk k).2 hge).trans ((h3 k).2 hge)

/-- **The rollback** of a window: every segment holds what it held. -/
theorem rollback_holds (hst : st.Hold cs) (ops : List BackendOp) :
    (rollback (capOn st) (captureCall w st ops).1).Hold cs := by
  intro k
  obtain ⟨-, hk⟩ := captureCall_holds ops hst
  unfold rollback
  by_cases hlt : k < MAX_COLS
  · rw [if_pos hlt]
    exact ((hk k).1 (st k) (.refl _)).restore seg_words_le (hst k)
  · rw [if_neg hlt]
    have hsame : (captureCall w st ops).1 k = st k := (hk k).2 (by omega)
    rw [hsame]
    exact hst k

theorem Reached.hold (h : Reached w st) : ∃ cs, st.Hold cs := by
  induction h with
  | reset p => exact ⟨_, resetSegs_hold p⟩
  | @call st h ops rcOk ih =>
    obtain ⟨cs, hst⟩ := ih
    unfold capOff
    split
    · exact (captureCall_holds ops hst).1
    · exact ⟨_, resetSegs_hold _⟩
  | kick h ih => exact ⟨_, resetSegs_hold _⟩

theorem sentOf_eq {cap h : ℕ} {s t : Seg} {cs : List (Chunk ℕ)} (hcap : cap < 2 ^ 32) (hs : s.Holds cap h cs)
    (ht : t.Holds cap h cs) : sentOf s = sentOf t := by
  obtain ⟨hs1, -, hs3⟩ := hs.finish hcap
  obtain ⟨ht1, -, ht3⟩ := ht.finish hcap
  have hw : (rtCpeSegFinish s).2.words = (rtCpeSegFinish t).2.words := hs1.trans ht1.symm
  have hl : (rtCpeSegFinish s).1 = (rtCpeSegFinish t).1 := by
    rw [hs3, ht3, ← words_length, ← words_length, hw]
  rw [sentOf, sentOf, hw, hl]

/-- Windows that hold the same accesses cannot be told apart. -/
theorem onward_eq (ls : List Later) : ∀ {st st' : Segs} {cs : ℕ → List (Chunk ℕ)}, st.Hold cs → st'.Hold cs →
    onward w st ls = onward w st' ls := by
  induction ls with
  | nil => simp [onward]
  | cons l ls ih =>
    intro st st' cs hst hst'
    cases l with
    | record op =>
      obtain ⟨h1, h2, -⟩ := record_holds (w := w) hst op
      obtain ⟨h1', h2', -⟩ := record_holds (w := w) hst' op
      simp only [onward]
      rw [h2, h2', ih h1 h1']
    | kick =>
      have hsent : ∀ k, sentOf (st k) = sentOf (st' k) := fun k => sentOf_eq (by decide) (hst k) (hst' k)
      simp only [onward, hsent]
      exact congrArg _ (ih (resetSegs_hold _) (resetSegs_hold _))

/-- **Capture rollback.** After a captured call that failed or set the bad flag, the segments are
put back: their words are read as the writes they held before the call, and whatever is recorded and
sent later is seen as if the call had never been captured. -/
theorem rollback_restores (h : Reached w st) (ops : List BackendOp) (rcOk : Bool)
    (hfail : (rcOk && !(captureCall w st ops).2) = false) :
    let r := rollback (capOn st) (captureCall w st ops).1
    capOff (capOn st) (captureCall w st ops) rcOk = flush r ∧
      (∀ k, ∃ accs, walk (st k).words = some accs ∧ walk (r k).words = some accs) ∧
      ∀ ls, onward w r ls = onward w st ls := by
  obtain ⟨cs, hst⟩ := h.hold
  have hr := rollback_holds (w := w) hst ops
  refine ⟨by simp [capOff, hfail], fun k => ?_, fun ls => onward_eq ls hr hst⟩
  have hwalk := walk_wordsOf (rowHdr k) (hst k).valid
  exact ⟨_, by rw [(hst k).words, hwalk], by rw [(hr k).words, hwalk]⟩

def pairSpan : Span := ⟨1, 2, by decide⟩

def oneCaptured : Segs :=
  capOff (capOn (resetSegs fun _ _ => 0))
    (captureCall pairSpan (resetSegs fun _ _ => 0) [.write 1 0 0x100 [7]]) true

/-- The next call joins the access of that one, and then reads a register. -/
theorem rollback_restores_read :
    onward pairSpan
        (rollback (capOn oneCaptured) (captureCall pairSpan oneCaptured [.write 1 0 0x104 [8], .other]).1)
        [.record (.write 1 0 0x104 [9]), .kick] =
      onward pairSpan oneCaptured [.record (.write 1 0 0x104 [9]), .kick] := by
  have hreach : Reached pairSpan oneCaptured := (Reached.reset fun _ _ => 0).call [.write 1 0 0x100 [7]] true
  obtain ⟨-, -, hlater⟩ := rollback_restores hreach [.write 1 0 0x104 [8], .other] false (by simp)
  exact hlater _

end Window

end AieHlc.Shim
