import AieHlc.Shim.Table

/-!
# Relaunching a window without its route

Once the shim row is routed, later launches send only the part of the table after
the return-route prefix. `rt_sb_aot_shift` accepts the cut when the word there
equals the segment's stream header. That word is a stream header when the calls
begin an access of their own; when the first call word joined the last route
access, it is that word itself, and a call word may equal the header.

* `Misread`: the cut is accepted inside an access.
* `Relaunched`: the words sent are those of the calls encoded alone.
* `relaunch_exact_iff`: the cut is exact unless the column is misread.
-/

namespace AieHlc.Shim

open List AieHlc.Word AieHlc.Packet

variable {w : ℕ × ℕ} {ws : List (ℕ × ℕ)}

/-- The first of several call words joined the last route access, and equals the stream
header of the column. -/
def Misread (k : ℕ) (R W : List (ℕ × ℕ)) : Prop :=
  ∃ c older w w' ws, putWords [] R = c :: older ∧ W = w :: w' :: ws ∧ c.Takes w.1 ∧ w.2 = rowHdr k

/-- The words of `W`, encoded from reset and finished. -/
def aloneWords (k : ℕ) (W : List (ℕ × ℕ)) : List ℕ := wordsOf (rowHdr k) (sealLast (putWords [] W))

/-- The words `ws` are what the encoder gives for `W` from reset, and they are read back
as `W` with one write with return, at the end. -/
structure Relaunched (k : ℕ) (W : List (ℕ × ℕ)) (ws : List ℕ) : Prop where
  alone : ∀ q, ∃ s, segPuts SEG_WORDS (acrShimRowId k) W (rtCpeSegReset q) = .ok () s ∧
    ws = (rtCpeSegFinish s).2.words
  decoded : ∃ accs, walk ws = some accs ∧ accs.flatMap Access.writes = W.map (fun w => (w.1 % 2 ^ 20, w.2)) ∧
    (W ≠ [] → OneAck accs)

theorem putWords_nil_ne {α : Type} {W : List (ℕ × α)} (h : W ≠ []) : putWords [] W ≠ [] := by
  obtain ⟨w, ws, rfl⟩ := exists_cons_of_ne_nil h
  exact putWords_ne_nil (putWord_ne_nil [] w) ws

theorem putWords_nil_plain {α : Type} (W : List (ℕ × α)) : Plain (putWords [] W) :=
  putWords_plain (fun _ h => absurd h not_mem_nil) W

theorem relaunched_aloneWords {k : ℕ} {W : List (ℕ × ℕ)} (hfit : Fits SEG_WORDS [] W) :
    Relaunched k W (aloneWords k W) := by
  have hv := putWords_nil_valid W
  refine ⟨fun q => ?_, (sealLast (putWords [] W)).reverse.map (Chunk.access (rowHdr k)), ?_, ?_, ?_⟩
  · have hreset : (rtCpeSegReset q).Holds SEG_WORDS (cpeStreamHdr (acrShimRowId k)) [] := holds_reset q
    obtain ⟨s, hok, hs⟩ := hreset.puts seg_words_le W hfit
    exact ⟨s, hok, (hs.finish (by decide)).1.symm⟩
  · exact walk_wordsOf _ (sealLast_valid hv)
  · rw [access_writes _ (sealLast_valid hv), sealLast_writes, putWords_writes (by simp)]
    rfl
  · intro hne
    exact sealLast_oneAck (putWords_nil_ne hne) hv
      fun c hc => putWords_nil_plain W c (mem_of_mem_tail hc)

theorem Relaunched.eq {k : ℕ} {W : List (ℕ × ℕ)} {ws : List ℕ} (h : Relaunched k W ws)
    (hfit : Fits SEG_WORDS [] W) : ws = aloneWords k W := by
  obtain ⟨s, hok, hws⟩ := h.alone fun _ => 0
  obtain ⟨s', hok', hws'⟩ := (relaunched_aloneWords (k := k) hfit).alone fun _ => 0
  rw [hok] at hok'
  cases hok'
  rw [hws, hws']

theorem wordsOf_getD_zero {h : ℕ} {cs : List (Chunk ℕ)} (hne : cs ≠ []) : (wordsOf h cs).getD 0 0 = h := by
  induction cs with
  | nil => exact absurd rfl hne
  | cons c cs ih =>
    rw [wordsOf_cons]
    by_cases hcs : cs = []
    · rw [hcs]
      rfl
    · obtain ⟨x, xs, hx⟩ := exists_cons_of_ne_nil (show wordsOf h cs ≠ [] by
        obtain ⟨b, bs, rfl⟩ := exists_cons_of_ne_nil hcs
        rw [wordsOf_cons]
        simp)
      have hhead := ih hcs
      rw [hx] at hhead ⊢
      exact hhead

theorem rowHdr_ne_ack (k : ℕ) {w : ℕ} (h : hdrOp w = 2) : w ≠ rowHdr k := by
  rintro rfl
  rw [rowHdr, cpeStreamHdr, hdrOp_eq] at h
  have hlow : acrShimRowId k &&& 0x1F < 2 ^ 31 := lt_of_le_of_lt Nat.and_le_right (by decide)
  have hlow' : acrShimRowId k &&& 0x1F ≤ 31 := Nat.and_le_right
  rw [or_shiftLeft_eq_add hlow] at h
  omega

section Cut

variable {t : Table} {k : ℕ} {R W : List (ℕ × ℕ)} {c : Chunk ℕ} {older : List (Chunk ℕ)}

theorem Table.Column.prefixLen_cons (hC : t.Column k R W) (hP : putWords [] R = c :: older) :
    t.prefixLen k = (slots older).length + (c.data.length + 2) := by
  rw [hC.prefixLen, hP, slots, length_append, c.slots_length]

theorem Table.Column.shift_eq (hC : t.Column k R W) (hP : putWords [] R = c :: older) :
    t.shift false k = if t.segLen k > t.prefixLen k ∧
      (t.segLast k < t.prefixLen k ∨ (t.seg k).getD (t.prefixLen k) 0 ≠ rowHdr k) then none
      else some (t.prefixLen k) := by
  have hne : sealLast (putWords (c :: older) W) ≠ [] :=
    sealLast_ne_nil (putWords_ne_nil (cons_ne_nil _ _) W)
  have hzero : (t.seg k).getD 0 0 = rowHdr k := by
    rw [hC.seg, hP]
    exact wordsOf_getD_zero hne
  have hpos : ¬(False ∨ t.prefixLen k = 0) := by
    rintro (h | h)
    · exact h
    · rw [hC.prefixLen_cons hP] at h
      omega
  rw [Table.shift]
  simp only [Bool.false_eq_true, if_neg hpos, hzero]

theorem Table.Column.cut_empty (hC : t.Column k R []) (hP : putWords [] R = c :: older) {sh : ℕ}
    (hsh : t.shift false k = some sh) : (t.seg k).drop sh = [] := by
  have hv := putWords_nil_valid R c (by rw [hP]; exact mem_cons_self)
  have hseg := hC.seg
  have hpre := hC.prefixLen_cons hP
  have hfl := c.front_length
  have hbl := hv.back_length
  have hpos := hv.pos
  have hwl := wordsOf_length (rowHdr k) older
  rw [hP, putWords_nil] at hseg
  rw [hC.shift_eq hP] at hsh
  by_cases hlen : 1 < c.data.length
  · -- finishing split the last route access: the cut falls on its control header
    rw [sealLast_split hlen, wordsOf_cons, wordsOf_cons] at hseg
    generalize hinit : wordsOf (rowHdr k) older ++ rowHdr k :: c.front.ctrl :: c.front.data = init at hseg
    have hidx : t.prefixLen k = init.length + 1 := by
      rw [← hinit, length_append, length_cons, length_cons]
      omega
    have hcut : (t.seg k).getD (t.prefixLen k) 0 = c.back.ctrl := by
      rw [hseg, hidx, getD_eq_getElem?_getD, getElem?_append_right (Nat.le_add_right _ 1),
        Nat.add_sub_cancel_left, getElem?_cons_succ, getElem?_cons_zero, Option.getD_some]
    have hlong : t.segLen k > t.prefixLen k := by
      rw [Table.segLen, hseg, hidx, length_append, length_cons, length_cons]
      omega
    have hop : hdrOp c.back.ctrl = 2 := hv.back.hdrOp_eq
    have hne : (t.seg k).getD (t.prefixLen k) 0 ≠ rowHdr k := by
      rw [hcut]
      exact rowHdr_ne_ack k hop
    have hreject : t.segLen k > t.prefixLen k ∧
        (t.segLast k < t.prefixLen k ∨ (t.seg k).getD (t.prefixLen k) 0 ≠ rowHdr k) := ⟨hlong, .inr hne⟩
    rw [if_pos hreject] at hsh
    cases hsh
  · have hfull : (t.seg k).length ≤ t.prefixLen k := by
      rw [hseg, sealLast_single hlen, wordsOf_cons, length_append, length_cons, length_cons]
      omega
    have haccept : ¬(t.segLen k > t.prefixLen k ∧
        (t.segLast k < t.prefixLen k ∨ (t.seg k).getD (t.prefixLen k) 0 ≠ rowHdr k)) :=
      fun h => absurd h.1 (not_lt.2 hfull)
    rw [if_neg haccept] at hsh
    cases hsh
    exact drop_eq_nil_of_le hfull

theorem Table.Column.cut_fresh (hC : t.Column k R (w :: ws)) (hP : putWords [] R = c :: older)
    (ht : ¬c.Takes w.1) :
    (t.seg k).drop (t.prefixLen k) = aloneWords k (w :: ws) := by
  have hfresh : ∀ b ∈ (c :: older).head?, ¬b.Takes w.1 := by
    intro b hb
    cases hb
    exact ht
  rw [hC.seg, hC.prefixLen, hP, wordsOf, sealed_fresh hfresh, map_append]
  exact drop_left' (length_map _)

theorem Table.Column.cut_single (hC : t.Column k R [w]) (hP : putWords [] R = c :: older) (ht : c.Takes w.1) :
    (t.seg k).drop (t.prefixLen k) = aloneWords k [w] := by
  have hv := putWords_nil_valid R c (by rw [hP]; exact mem_cons_self)
  have hds : c.data ≠ [] := length_pos_iff.1 hv.pos
  obtain ⟨joined, news, xs, ys, hput, J⟩ := exists_joined_of_takes hv ht older []
  have hlen : (slots (⟨c.addr, 0, c.data⟩ :: older)).length = t.prefixLen k := by
    rw [hC.prefixLen_cons hP, slots, length_append, Chunk.slots_length]
  rw [hC.seg, hP, hput, wordsOf, J.single hds older rfl, map_append]
  exact drop_left' (by rw [length_map, hlen])

/-- Of several call words the first of which joined the route, the cut is accepted when
that word equals the stream header, and then leaves too few words. -/
theorem Table.Column.cut_several {w' : ℕ × ℕ} (hC : t.Column k R (w :: w' :: ws))
    (hP : putWords [] R = c :: older) (ht : c.Takes w.1) :
    t.shift false k = (if w.2 ≠ rowHdr k then none else some (t.prefixLen k)) ∧
      ((t.seg k).drop (t.prefixLen k)).length ≠ (aloneWords k (w :: w' :: ws)).length := by
  have hv := putWords_nil_valid R c (by rw [hP]; exact mem_cons_self)
  have hds : c.data ≠ [] := length_pos_iff.1 hv.pos
  obtain ⟨joined, news, xs, ys, hput, J⟩ := exists_joined_of_takes hv ht older (w' :: ws)
  obtain ⟨init, d, tail, hslots, hinit, hhead, htail, hlast⟩ :=
    J.several hds 0 older (by simp only [map_cons, length_cons]; omega)
  have hd : d = w.2 := (Option.some.inj hhead).symm
  have hpre : init.length = t.prefixLen k := by
    rw [hinit, hC.prefixLen_cons hP, slots, length_append, Chunk.slots_length]
  have hseg : t.seg k = init.map (Slot.word (rowHdr k)) ++ w.2 :: tail.map (Slot.word (rowHdr k)) := by
    rw [hC.seg, hP, hput, wordsOf, hslots, map_append, hd]
    rfl
  have hmap : (init.map (Slot.word (rowHdr k))).length = t.prefixLen k := by rw [length_map, hpre]
  constructor
  · have hlong : t.segLen k > t.prefixLen k := by
      rw [Table.segLen, hseg, length_append, hmap, length_cons]
      omega
    have hcut : (t.seg k).getD (t.prefixLen k) 0 = w.2 := by
      rw [hseg, ← hmap, getD_eq_getElem?_getD, getElem?_append_right le_rfl, Nat.sub_self]
      rfl
    have hge : ¬t.segLast k < t.prefixLen k := by
      rw [hC.segLast, hP, hput, ← hpre]
      omega
    rw [hC.shift_eq hP, hcut]
    exact if_congr (by rw [or_iff_right hge, and_iff_right hlong]) rfl rfl
  · rw [hseg, drop_left' hmap, length_cons, length_map, aloneWords, wordsOf_length, ← htail]
    omega

end Cut

section Main

variable {D : Driver} {F : Fabric} {p : ℕ → ℕ → ℕ} {cs : List Call} {t : Table}

/-- **A relaunch sends what the calls alone are encoded as, unless its column is misread.** -/
theorem relaunch_exact_iff (hb : buildWindow D F p cs = some t) (k : ℕ) :
    (∀ sh, t.shift false k = some sh → Relaunched k (tableWords D F cs k) ((t.seg k).drop sh)) ↔
      ¬Misread k (tableRoute F p k) (tableWords D F cs k) := by
  have hC := buildWindow_column hb k
  generalize tableRoute F p k = R at hC
  generalize tableWords D F cs k = W at hC
  have hfit := fits_alone (putWords_nil_valid R) hC.fits
  have hexact := relaunched_aloneWords (k := k) hfit
  cases hP : putWords [] R with
  | nil =>
    -- no route in this column: the whole segment is sent
    have hpre : t.prefixLen k = 0 := by rw [hC.prefixLen, hP]; rfl
    have hshift : t.shift false k = some 0 := by rw [Table.shift]; exact if_pos (.inr hpre)
    refine iff_of_true ?_ ?_
    · intro sh hsh
      rw [hshift] at hsh
      cases hsh
      rw [drop_zero, hC.seg, hP]
      exact hexact
    · rintro ⟨c, older, w, w', ws, hP', -⟩
      rw [hP] at hP'
      cases hP'
  | cons c older =>
    have hcut : ∀ sh, t.shift false k = some sh → sh = t.prefixLen k := by
      intro sh hsh
      rw [hC.shift_eq hP] at hsh
      split at hsh
      · cases hsh
      · exact (Option.some.inj hsh).symm
    rcases W with _ | ⟨w, _ | ⟨w', ws⟩⟩
    · refine iff_of_true ?_ ?_
      · intro sh hsh
        rw [hC.cut_empty hP hsh]
        exact hexact
      · rintro ⟨_, _, _, _, _, -, hW, -⟩
        cases hW
    · refine iff_of_true ?_ ?_
      · intro sh hsh
        rw [hcut sh hsh]
        by_cases ht : c.Takes w.1
        · rw [hC.cut_single hP ht]
          exact hexact
        · rw [hC.cut_fresh hP ht]
          exact hexact
      · rintro ⟨_, _, _, _, _, -, hW, -⟩
        cases hW
    · by_cases ht : c.Takes w.1
      · obtain ⟨hshift, hlen⟩ := hC.cut_several hP ht
        by_cases hw : w.2 = rowHdr k
        · refine iff_of_false ?_ (not_not_intro ⟨c, older, w, w', ws, hP, rfl, ht, hw⟩)
          intro hall
          rw [if_neg (not_not_intro hw)] at hshift
          exact hlen (congrArg List.length ((hall _ hshift).eq hfit))
        · refine iff_of_true ?_ ?_
          · intro sh hsh
            rw [hshift, if_pos hw] at hsh
            cases hsh
          · rintro ⟨_, _, _, _, _, -, hW, -, hw'⟩
            cases hW
            exact hw hw'
      · refine iff_of_true ?_ ?_
        · intro sh hsh
          rw [hcut sh hsh, hC.cut_fresh hP ht]
          exact hexact
        · rintro ⟨_, _, _, _, _, hP', hW, ht', -⟩
          rw [hP] at hP'
          cases hP'
          cases hW
          exact ht ht'

end Main

/-- A fabric of one column whose route is one word. -/
def oneColumn : Fabric := ⟨0, 0, 1, 1, [(1, 0x100, 1)], le_rfl⟩

/-- A driver whose every call writes the words `ws`. -/
def constDriver (ws : List (ℕ × ℕ)) : Driver := ⟨fun _ => some ws, fun _ _ _ => none⟩

/-- A channel call on the column of `oneColumn`. -/
def channelCall : Call := ⟨.chOoo, 1, 0, 0, 0, 0, 0, 0, []⟩

theorem oneColumn_route : tableRoute oneColumn (fun _ _ => 0) 0 = [(0x100, 1)] := by decide +kernel

/-- The relaunch of a window with one call of two words, beside the route's register. -/
theorem relaunch_exact_channel :
    ∃ t, buildWindow (constDriver [(0x104, 5), (0x108, 7)]) oneColumn (fun _ _ => 0)
    [channelCall] = some t ∧ ∀ sh, t.shift false 0 = some sh →
      Relaunched 0 [(0x104, 5), (0x108, 7)] ((t.seg 0).drop sh) := by
  obtain ⟨t, ht⟩ := Option.isSome_iff_exists.1
    (show (buildWindow (constDriver [(0x104, 5), (0x108, 7)]) oneColumn
    (fun _ _ => 0) [channelCall]).isSome = true by decide +kernel)
  refine ⟨t, ht, (relaunch_exact_iff ht 0).2 ?_⟩
  rintro ⟨_, _, w, _, _, -, hW, -, hw⟩
  have hfirst : (5 : ℕ) = w.2 := congrArg (fun l => (l.headD (0, 0)).2) hW
  rw [← hfirst] at hw
  exact absurd hw (by decide)

/-- The same window with a first word equal to the stream header `0x80000000`: the cut
is accepted in the middle of an access. -/
theorem relaunch_not_exact : ∃ t, buildWindow (constDriver [(0x104, 0x80000000), (0x108, 7)]) oneColumn
    (fun _ _ => 0) [channelCall] = some t ∧ ∃ sh, t.shift false 0 = some sh ∧
      ¬Relaunched 0 [(0x104, 0x80000000), (0x108, 7)] ((t.seg 0).drop sh) := by
  obtain ⟨t, ht⟩ := Option.isSome_iff_exists.1
    (show (buildWindow (constDriver [(0x104, 0x80000000), (0x108, 7)])
    oneColumn (fun _ _ => 0) [channelCall]).isSome = true by decide +kernel)
  have hC := buildWindow_column ht 0
  rw [oneColumn_route] at hC
  have hC' : t.Column 0 [(0x100, 1)] [(0x104, 0x80000000), (0x108, 7)] := hC
  have hP : putWords [] [(0x100, 1)] = [⟨0x100, 0, [1]⟩] := rfl
  obtain ⟨hshift, hlen⟩ := hC'.cut_several hP (by decide)
  rw [if_neg (by decide)] at hshift
  exact ⟨t, ht, _, hshift, fun h => hlen (congrArg List.length (h.eq ⟨by decide, by decide, trivial⟩))⟩

end AieHlc.Shim
