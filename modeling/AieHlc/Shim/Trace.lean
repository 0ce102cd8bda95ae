import AieHlc.Shim.Window

/-!
# What a window's log does to a column

The effects of a log on one column of the window: the register writes decoded from the
sent segments, and the calls executed directly. The pad write of an empty column is not
counted.

* `received`: the effects of a log.
* `Segs.Kept`: segments that can still be sent.
* `kick_received`: a kick sends exactly what the segments hold.
* `rtSbCall_cases`: what a captured call can do.
* `CallInv.run`: an invariant of the calls is one of the window.
-/

namespace AieHlc.Shim

open List AieHlc.Word AieHlc.Packet

/-- An effect on a column: a register write, or a call that is no plain sequence of writes. -/
inductive Effect where
  | write (off val : ℕ)
  | call (c : Call)
  deriving DecidableEq

def wordEffects (ws : List (ℕ × ℕ)) : List Effect := ws.map fun w => .write (w.1 % 2 ^ 20) w.2

/-- The effects of a call on column `k` of the fabric. -/
def callEffects (D : Driver) (F : Fabric) (k : ℕ) (c : Call) : List Effect :=
  if inRange F.lo F.hi c.col c.row ∧ c.col = F.lo + k then (D.words c).elim [.call c] wordEffects else []

def columnWords (col : ℕ) (rs : List (ℕ × ℕ × ℕ)) : List (ℕ × ℕ) :=
  rs.filterMap fun r => if r.1 = col then some r.2 else none

/-- The writes a sent segment is read as. -/
def decoded (ws : List ℕ) : Option (List Effect) :=
  (walk ws).map fun accs => wordEffects (accs.flatMap Access.writes)

/-- The effects of one output on column `k`. -/
def Output.effects (D : Driver) (F : Fabric) (k : ℕ) : Output → Option (List Effect)
  | .batch sent => (sent[k]?).elim (some []) fun x => if x.pad then some [] else decoded x.words
  | .direct c => some (callEffects D F k c)
  | .route ws => some (wordEffects (columnWords (F.lo + k) ws))

/-- The effects of a log on column `k`; `none` when a segment cannot be read. -/
def received (D : Driver) (F : Fabric) (k : ℕ) : List Output → Option (List Effect)
  | [] => some []
  | o :: os => (o.effects D F k).bind fun a => (received D F k os).map fun b => a ++ b

section Effects

variable {D : Driver} {F : Fabric} {k : ℕ} {os os' : List Output} {a b : List Effect}

theorem received_append (ha : received D F k os = some a) (hb : received D F k os' = some b) :
    received D F k (os ++ os') = some (a ++ b) := by
  induction os generalizing a with
  | nil =>
    cases ha
    exact hb
  | cons o os ih =>
    obtain ⟨x, hx, hrest⟩ := Option.bind_eq_some_iff.1 ha
    obtain ⟨y, hy, rfl⟩ := Option.map_eq_some_iff.1 hrest
    rw [cons_append, received, hx, Option.bind_some, ih hy, Option.map_some, append_assoc]

theorem received_single (o : Output) : received D F k [o] = o.effects D F k := by
  rw [received]
  cases o.effects D F k with
  | none => rfl
  | some a => exact congrArg some (append_nil a)

theorem wordEffects_append (ws ws' : List (ℕ × ℕ)) :
    wordEffects (ws ++ ws') = wordEffects ws ++ wordEffects ws' :=
  map_append

theorem wordEffects_mod (ws : List (ℕ × ℕ)) :
    wordEffects (ws.map fun w => (w.1 % 2 ^ 20, w.2)) = wordEffects ws := by
  rw [wordEffects, map_map]
  apply map_congr_left
  intro w _
  exact congrArg (Effect.write · w.2) (Nat.mod_mod _ _)

/-- The effects held by a segment grow by the words put into it. -/
theorem wordEffects_putWords {cs : List (Chunk ℕ)} (hv : ∀ c ∈ cs, c.Valid) (ws : List (ℕ × ℕ)) :
    wordEffects (chunkWrites (putWords cs ws)) = wordEffects (chunkWrites cs) ++ wordEffects ws := by
  rw [putWords_writes hv, wordEffects_append, wordEffects_mod]

theorem decoded_sealed (h : ℕ) {cs : List (Chunk ℕ)} (hv : ∀ c ∈ cs, c.Valid) :
    decoded (wordsOf h (sealLast cs)) = some (wordEffects (chunkWrites cs)) := by
  rw [decoded, walk_wordsOf h (sealLast_valid hv), Option.map_some, access_writes h (sealLast_valid hv),
    sealLast_writes]

end Effects

/-! ### A kick -/

/-- The segments of the first `n` columns hold the accesses `cs`, and may be full. -/
def Segs.Kept (st : Segs) (n : ℕ) (cs : ℕ → List (Chunk ℕ)) : Prop :=
  ∀ k < n, (st k).Holds (SEG_WORDS + 2) (rowHdr k) (cs k)

theorem Segs.Hold.kept {st : Segs} {cs : ℕ → List (Chunk ℕ)} (h : st.Hold cs) (n : ℕ) : st.Kept n cs := by
  intro k _
  have hk := h k
  refine ⟨hk.words, hk.valid, hk.last, hk.room.imp_right fun hroom => ?_⟩
  omega

/-- The accesses sent for a column. -/
def sentChunks (E : Env) (s : Sb) (cs : ℕ → List (Chunk ℕ)) (k : ℕ) : List (Chunk ℕ) :=
  if s.padded E k then [.single (E.pad.getD 0, 0)] else cs k

section Kick

variable {D : Driver} {F : Fabric} {E : Env} {s : Sb} {cs : ℕ → List (Chunk ℕ)} {k : ℕ}

theorem Sb.padded_pw (h : s.padded E k = true) : (s.seg k).pw = 0 := by
  rw [Sb.padded, Bool.and_eq_true] at h
  exact beq_iff_eq.1 h.2

theorem Segs.Kept.padded_nil (hs : s.seg.Kept s.ncols cs) (hk : k < s.ncols) (h : s.padded E k = true) :
    cs k = [] := by
  have hlen : (slots (cs k)).length = 0 := by rw [← (hs k hk).pw_eq, Sb.padded_pw h]
  cases hcs : cs k with
  | nil => rfl
  | cons c cs' =>
    rw [hcs, slots, length_append, c.slots_length] at hlen
    omega

/-- A padded column holds the pad write; the others are as they were. -/
theorem Segs.Kept.padSeg (hs : s.seg.Kept s.ncols cs) (hk : k < s.ncols) :
    (s.padSeg E k).Holds (SEG_WORDS + 2) (rowHdr k) (sentChunks E s cs k) := by
  unfold Sb.padSeg sentChunks
  by_cases hpad : s.padded E k = true
  · rw [if_pos hpad, if_pos hpad]
    have hholds := hs k hk
    rw [hs.padded_nil hk hpad] at hholds
    have hempty : (s.seg k).Holds SEG_WORDS (cpeStreamHdr (acrShimRowId k)) [] :=
      ⟨hholds.words, hholds.valid, hholds.last, .inl (Sb.padded_pw hpad)⟩
    obtain ⟨u, s', hok⟩ := (hempty.room_iff seg_words_le (E.pad.getD 0) 0).2 (by decide)
    have hput := hempty.word seg_words_le ((rtCpeSegWrite_single (E.pad.getD 0) 0 (s.seg k)).symm.trans hok)
    rw [putReg, hok]
    show (Function.update s.seg k s' k).Holds _ _ _
    rw [Function.update_self]
    exact ⟨hput.words, hput.valid, hput.last, hput.room.imp_right fun h => by omega⟩
  · rw [if_neg hpad, if_neg hpad]
    exact hs k hk

theorem Segs.Kept.sentWords (hs : s.seg.Kept s.ncols cs) (hk : k < s.ncols) :
    s.sentWords E k = wordsOf (rowHdr k) (sealLast (sentChunks E s cs k)) := by
  obtain ⟨hw, -, hlen⟩ := (hs.padSeg (E := E) hk).finish (by decide)
  rw [Sb.sentWords, hlen, ← hw]
  rfl

theorem sent_getElem (hk : k < s.ncols) : (s.sent E)[k]? = some ⟨s.sentWords E k, s.padded E k⟩ := by
  rw [Sb.sent, getElem?_map, getElem?_range hk]
  rfl

theorem wordsOf_sealLast_ne_nil (h : ℕ) {cs : List (Chunk ℕ)} (hne : cs ≠ []) :
    wordsOf h (sealLast cs) ≠ [] := by
  obtain ⟨c, cs', hcs⟩ := exists_cons_of_ne_nil (sealLast_ne_nil hne)
  rw [hcs, wordsOf_cons]
  exact append_ne_nil_of_right_ne_nil _ (cons_ne_nil _ _)

/-- No segment counted means no column has been written to. -/
theorem nseg_eq_zero (hs : s.seg.Kept s.ncols cs) (h : nseg (s.sent E) = 0) : ∀ k < s.ncols, cs k = [] := by
  intro k hk
  have hmem := mem_of_getElem? (sent_getElem (E := E) hk)
  have hnil : s.sentWords E k = [] := by
    by_contra hne
    exact absurd h (Nat.pos_iff_ne_zero.1 (countP_pos_iff.2 ⟨_, hmem, by simpa using hne⟩))
  by_contra hne
  rw [hs.sentWords hk] at hnil
  refine wordsOf_sealLast_ne_nil _ ?_ hnil
  unfold sentChunks
  split
  · exact cons_ne_nil _ _
  · exact hne

/-- **A kick sends what the segments hold**, and leaves them empty. -/
theorem kick_received (hs : s.seg.Kept s.ncols cs) :
    ∃ os, (rtSbKick E s).out = s.out ++ os ∧ (∀ o ∈ os, o = .batch (s.sent E)) ∧
      ∀ k < s.ncols, received D F k os = some (wordEffects (chunkWrites (cs k))) := by
  by_cases hn : nseg (s.sent E) = 0
  · refine ⟨[], ?_, fun o ho => absurd ho not_mem_nil, fun k hk => ?_⟩
    · show (if nseg (s.sent E) = 0 then s.out else _) = _
      rw [if_pos hn, append_nil]
    · rw [nseg_eq_zero hs hn k hk]
      rfl
  · refine ⟨[.batch (s.sent E)], ?_, fun o ho => mem_singleton.1 ho, fun k hk => ?_⟩
    · show (if nseg (s.sent E) = 0 then s.out else _) = _
      rw [if_neg hn]
    · rw [received_single]
      show ((s.sent E)[k]?).elim _ _ = _
      rw [sent_getElem hk]
      show (if s.padded E k = true then some [] else decoded (s.sentWords E k)) = _
      by_cases hpad : s.padded E k = true
      · rw [if_pos hpad, hs.padded_nil hk hpad]
        rfl
      · have hsent : sentChunks E s cs k = cs k := if_neg hpad
        rw [if_neg hpad, hs.sentWords hk, hsent, decoded_sealed _ (hs k hk).valid]

theorem rtSbKick_hold : (rtSbKick E s).seg.Hold fun _ => [] := resetSegs_hold _

end Kick

/-! ### A call -/

section Call

variable {D : Driver} {F : Fabric} {E : Env} {s : Sb} {cs : ℕ → List (Chunk ℕ)} {c : Call}

/-- **What a call inside the window does**: its words join its column's segment, or the
segments are sent and the call is executed directly. -/
theorem rtSbCall_cases (hs : s.seg.Hold cs) (hin : s.inWindow c = true) :
    (∃ ws st, D.words c = some ws ∧ rtSbCall D E s c = { s with seg := st } ∧
      st.Hold fun k => putWords (cs k) (if c.col - s.lo = k then ws else [])) ∨
    rtSbCall D E s c = { rtSbKick E s with out := (rtSbKick E s).out ++ [.direct c] } := by
  unfold rtSbCall
  rw [if_pos hin]
  cases hcap : capture D s c with
  | none => exact .inr rfl
  | some st =>
    obtain ⟨ws, hws, hmap⟩ := Option.bind_eq_some_iff.1 hcap
    obtain ⟨r, hr, rfl⟩ := Option.map_eq_some_iff.1 hmap
    have hst := (appendRecords_hold _ hr hs).2
    simp only [colWrites_call] at hst
    exact .inl ⟨ws, r.1, hws, rfl, hst⟩

theorem rtSbCall_outside (hout : s.inWindow c = false) :
    rtSbCall D E s c = { s with out := s.out ++ [.direct c] } := by
  unfold rtSbCall
  rw [hout]
  rfl

theorem rtSbCall_frame (D : Driver) (E : Env) (s : Sb) (c : Call) :
    ∃ st armed out, rtSbCall D E s c = { s with seg := st, armed := armed, out := out } := by
  unfold rtSbCall
  split
  · split
    · exact ⟨_, _, _, rfl⟩
    · exact ⟨_, _, _, rfl⟩
  · exact ⟨_, _, _, rfl⟩

theorem replay_frame (D : Driver) (E : Env) (recs : List Call) : ∀ s : Sb,
    ∃ st armed out, recs.foldl (rtSbCall D E) s = { s with seg := st, armed := armed, out := out } := by
  induction recs with
  | nil => exact fun s => ⟨_, _, _, rfl⟩
  | cons c recs ih =>
    intro s
    obtain ⟨st, armed, out, h⟩ := rtSbCall_frame D E s c
    obtain ⟨st', armed', out', h'⟩ := ih (rtSbCall D E s c)
    refine ⟨st', armed', out', ?_⟩
    rw [foldl_cons, h', h]

/-- A window that follows a table. -/
def Sb.Taking (s : Sb) : Prop := s.aot.isSome = true ∧ s.aotFailed = false

/-- The noted calls executed after all. -/
def replay (D : Driver) (E : Env) (s : Sb) : Sb := s.recs.foldl (rtSbCall D E) { s with aotFailed := true }

theorem aotFail_taking (h : s.Taking) : aotFail D E s = replay D E s := by
  have hno : ¬(s.aot.isNone = true ∨ s.aotFailed = true) := by
    rintro (h' | h')
    · rw [Option.isNone_iff_eq_none] at h'
      rw [Sb.Taking, h'] at h
      exact absurd h.1 Bool.false_ne_true
    · rw [h.2] at h'
      exact absurd h' Bool.false_ne_true
  exact if_neg hno

theorem aotTake_skips (h : ¬(s.Taking ∧ s.inWindow c = true)) : aotTake D E s c = (false, s) := by
  unfold aotTake
  cases haot : s.aot with
  | none => rfl
  | some t =>
    have hskip : s.aotFailed = true ∨ ¬s.inWindow c = true := by
      by_contra hno
      obtain ⟨hf, hw⟩ := not_or.1 hno
      exact h ⟨⟨by rw [haot]; rfl, Bool.eq_false_iff.2 hf⟩, not_not.1 hw⟩
    exact if_pos hskip

/-- A call of the window is noted if it is the table's next; else the notes are replayed. -/
theorem aotTake_taking {t : Table} (haot : s.aot = some t) (h : s.Taking) (hin : s.inWindow c = true) :
    (∃ e, t.calls[s.recs.length]? = some e ∧ e.matches c = true ∧
      aotTake D E s c = (true, { s with recs := s.recs ++ [c] })) ∨ aotTake D E s c =
        (false, replay D E s) := by
  have hno : ¬(s.aotFailed = true ∨ ¬s.inWindow c = true) := by
    rintro (hf | hw)
    · rw [h.2] at hf
      exact absurd hf Bool.false_ne_true
    · exact hw hin
  unfold aotTake
  rw [haot]
  dsimp only
  rw [if_neg hno, ← haot]
  cases he : (t.calls.take AOT_MAX_CALLS)[s.recs.length]? with
  | none => exact .inr (congrArg (Prod.mk false) (aotFail_taking h))
  | some e =>
    by_cases hm : e.matches c = true
    · have hget : t.calls[s.recs.length]? = some e := by
        rw [getElem?_take] at he
        split at he
        · exact he
        · cases he
      exact .inl ⟨e, hget, hm, if_pos hm⟩
    · refine .inr ?_
      dsimp only
      rw [if_neg hm, aotFail_taking h]

/-- **What a call of the host program does**: outside the table's rule it is a plain call;
a matching call is noted; any other makes the noted calls catch up. -/
theorem rtSbDo_cases (D : Driver) (E : Env) (s : Sb) (c : Call) :
    (¬(s.Taking ∧ s.inWindow c = true) ∧ rtSbDo D E s c = rtSbCall D E s c) ∨
    (s.Taking ∧ s.inWindow c = true ∧ rtSbDo D E s c = { s with recs := s.recs ++ [c] } ∧
      ∃ t e, s.aot = some t ∧ t.calls[s.recs.length]? = some e ∧ e.matches c = true) ∨
    (s.Taking ∧ s.inWindow c = true ∧ rtSbDo D E s c = rtSbCall D E (replay D E s) c) := by
  unfold rtSbDo
  by_cases h : s.Taking ∧ s.inWindow c = true
  · obtain ⟨t, haot⟩ := Option.isSome_iff_exists.1 h.1.1
    rcases aotTake_taking (D := D) (E := E) haot h.1 h.2 with ⟨e, hget, hm, htake⟩ | htake
    · refine .inr (.inl ⟨h.1, h.2, ?_, t, e, haot, hget, hm⟩)
      rw [htake]
      rfl
    · refine .inr (.inr ⟨h.1, h.2, ?_⟩)
      rw [htake]
      rfl
  · refine .inl ⟨h, ?_⟩
    rw [aotTake_skips h]
    rfl

end Call

/-! ### The calls of a window -/

def rowCalls (F : Fabric) (ds : List Call) : List Call := ds.filter fun c => inRange F.lo F.hi c.col c.row

/-- The effects of calls on column `k`. -/
def callsEffects (D : Driver) (F : Fabric) (ds : List Call) (k : ℕ) : List Effect :=
  ds.flatMap (callEffects D F k)

/-- `P` relates states to the effects so far and is kept by every call that satisfies
`ok`, whether it is executed directly or captured. -/
structure CallInv (D : Driver) (F : Fabric) (E : Env) (ok : Call → Prop) (P : Sb → (ℕ → List Effect) → Prop) :
    Prop where
  window : ∀ {s X}, P s X → ∀ c, s.inWindow c = inRange F.lo F.hi c.col c.row
  notes : ∀ {s X}, P s X → ∀ recs failed, P { s with recs := recs, aotFailed := failed } X
  call : ∀ {s X}, P s X → ∀ c, ok c → P (rtSbCall D E s c) fun k => X k ++ callEffects D F k c

/-- How far a window has come after the calls `ds`: they are noted, or executed. -/
def Progress (D : Driver) (F : Fabric) (P : Sb → (ℕ → List Effect) → Prop) (X : ℕ → List Effect)
    (ds : List Call) (s : Sb) : Prop :=
  (s.Taking ∧ s.recs = rowCalls F ds ∧ P s X) ∨ (¬s.Taking ∧ P s fun k => X k ++ callsEffects D F ds k)

section Run

variable {D : Driver} {F : Fabric} {E : Env} {ok : Call → Prop} {P : Sb → (ℕ → List Effect) → Prop} {s : Sb}
  {X : ℕ → List Effect} {ds : List Call} {c : Call}

theorem callEffects_outside (h : inRange F.lo F.hi c.col c.row = false) (k : ℕ) :
    callEffects D F k c = [] := by
  rw [callEffects, h]
  exact if_neg fun h => Bool.false_ne_true h.1

theorem callsEffects_concat (ds : List Call) (c : Call) (k : ℕ) :
    callsEffects D F (ds ++ [c]) k = callsEffects D F ds k ++ callEffects D F k c := by
  rw [callsEffects, flatMap_append, flatMap_singleton]
  rfl

theorem rowCalls_cons (c : Call) (ds : List Call) :
    rowCalls F (c :: ds) = (if inRange F.lo F.hi c.col c.row then [c] else []) ++ rowCalls F ds := by
  rw [rowCalls, filter_cons]
  split <;> rfl

theorem rowCalls_concat (ds : List Call) (c : Call) :
    rowCalls F (ds ++ [c]) = rowCalls F ds ++ if inRange F.lo F.hi c.col c.row then [c] else [] := by
  have hone := rowCalls_cons (F := F) c []
  rw [rowCalls, filter_append]
  exact congrArg (rowCalls F ds ++ ·) (hone.trans (append_nil _))

theorem callsEffects_rowCalls (ds : List Call) (k : ℕ) :
    callsEffects D F (rowCalls F ds) k = callsEffects D F ds k := by
  induction ds with
  | nil => rfl
  | cons c ds ih =>
    have hsplit : callsEffects D F (c :: ds) k = callEffects D F k c ++ callsEffects D F ds k := flatMap_cons
    rw [hsplit, ← ih, rowCalls_cons]
    cases hin : inRange F.lo F.hi c.col c.row with
    | true => exact flatMap_cons
    | false =>
      rw [callEffects_outside hin]
      rfl

theorem taking_rtSbCall : (rtSbCall D E s c).Taking ↔ s.Taking := by
  obtain ⟨st, armed, out, h⟩ := rtSbCall_frame D E s c
  rw [h]
  rfl

theorem not_taking_replay : ¬(replay D E s).Taking := by
  obtain ⟨st, armed, out, h⟩ := replay_frame D E s.recs { s with aotFailed := true }
  rw [replay, h]
  exact fun htak => absurd htak.2 Bool.true_eq_false.mp

section

variable (hP : CallInv D F E ok P)

include hP

theorem CallInv.fold (recs : List Call) : ∀ {s X}, P s X → (∀ c ∈ recs, ok c) →
    P (recs.foldl (rtSbCall D E) s) fun k => X k ++ callsEffects D F recs k := by
  induction recs with
  | nil =>
    intro s X hs _
    have hX : (fun k => X k ++ callsEffects D F [] k) = X := funext fun k => append_nil (X k)
    rw [hX]
    exact hs
  | cons c recs ih =>
    intro s X hs hok
    have hnext := ih (hP.call hs c (hok c mem_cons_self)) fun d hd => hok d (mem_cons_of_mem _ hd)
    have hX : (fun k => X k ++ callsEffects D F (c :: recs) k) =
        fun k => (X k ++ callEffects D F k c) ++ callsEffects D F recs k := by
      funext k
      rw [append_assoc]
      rfl
    rw [hX]
    exact hnext

theorem CallInv.replayed (hs : P s X) (hok : ∀ c ∈ s.recs, ok c) :
    P (replay D E s) fun k => X k ++ callsEffects D F s.recs k :=
  hP.fold s.recs (hP.notes hs s.recs true) hok

/-- One call: noted, executed, or executed after the notes. -/
theorem CallInv.step (hs : Progress D F P X ds s) (hds : ∀ d ∈ ds, ok d) (hc : ok c) :
    Progress D F P X (ds ++ [c]) (rtSbDo D E s c) := by
  have hwin : s.inWindow c = inRange F.lo F.hi c.col c.row := by
    rcases hs with ⟨-, -, hs⟩ | ⟨-, hs⟩ <;> exact hP.window hs c
  rcases rtSbDo_cases D E s c with ⟨hplain, hdo⟩ | ⟨htak, hin, hdo, -⟩ | ⟨htak, hin, hdo⟩
  · rw [hdo]
    rcases hs with ⟨htak, hrecs, hs⟩ | ⟨hno, hs⟩
    · -- a call outside the window's columns leaves the notes alone
      have hout : inRange F.lo F.hi c.col c.row = false := by
        rw [← hwin]
        exact Bool.eq_false_iff.2 fun h => hplain ⟨htak, h⟩
      refine .inl ⟨taking_rtSbCall.2 htak, ?_, ?_⟩
      · rw [rtSbCall_outside (hwin.trans hout), rowCalls_concat, hout]
        exact hrecs.trans (append_nil _).symm
      · have hX : (fun k => X k ++ callEffects D F k c) = X := by
          funext k
          rw [callEffects_outside hout, append_nil]
        exact hX ▸ hP.call hs c hc
    · refine .inr ⟨fun h => hno (taking_rtSbCall.1 h), ?_⟩
      simp only [callsEffects_concat, ← append_assoc]
      exact hP.call hs c hc
  · rcases hs with ⟨-, hrecs, hs⟩ | ⟨hno, -⟩
    · refine .inl ?_
      rw [hdo]
      refine ⟨htak, ?_, hP.notes hs _ _⟩
      show s.recs ++ [c] = _
      rw [rowCalls_concat, ← hwin, hin, hrecs]
      rfl
    · exact absurd htak hno
  · rcases hs with ⟨-, hrecs, hs⟩ | ⟨hno, -⟩
    · have hrow : ∀ d ∈ s.recs, ok d := by
        rw [hrecs]
        exact fun d hd => hds d (mem_of_mem_filter hd)
      have hrep := hP.call (hP.replayed hs hrow) c hc
      rw [hdo]
      refine .inr ⟨fun h => not_taking_replay (taking_rtSbCall.1 h), ?_⟩
      simp only [callsEffects_concat, ← append_assoc]
      simpa only [hrecs, callsEffects_rowCalls] using hrep
    · exact absurd htak hno

/-- **All calls of a window**: they are noted to the last, or executed in order. -/
theorem CallInv.run (calls : List Call) : ∀ {ds s}, Progress D F P X ds s →
    (∀ d ∈ ds ++ calls, ok d) → Progress D F P X (ds ++ calls) (calls.foldl (rtSbDo D E) s) := by
  induction calls with
  | nil =>
    intro ds s hs _
    rw [append_nil]
    exact hs
  | cons c calls ih =>
    intro ds s hs hok
    rw [append_cons] at hok ⊢
    refine ih (hP.step hs (fun d hd => hok d ?_) (hok c ?_)) hok
    · exact mem_append_left _ (mem_append_left _ hd)
    · exact mem_append_left _ (mem_append_right _ mem_cons_self)

end

end Run

end AieHlc.Shim
