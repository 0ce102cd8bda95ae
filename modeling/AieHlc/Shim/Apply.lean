import Mathlib.Data.List.Forall2
import AieHlc.Shim.Trace

/-!
# The table's words at run time

The runtime takes two things from a table: the first words of each segment as the
return route (`seedSegs`), and the whole segment with the addresses patched in
(`applyColumn`). Both cut a segment that is already finished, so both are exact only when
finishing and coalescing left the route's part alone.

* `SeedKept`: the route's part of a column is what the route alone is encoded as.
* `sealed_kept`: then the finished column is the route and the finished calls.
* `patchedColumn`: the call words with the addresses of this launch.
* `applyColumn_holds`: the overlaid segment holds the patched words.
-/

namespace AieHlc.Shim

open Option List AieHlc.Word AieHlc.Packet

/-! ### The route's part -/

/-- The route's part of a column is intact: without calls the last route access has one
word, and of several call words the first does not join it. -/
def SeedKept (R W : List (ℕ × ℕ)) : Prop :=
  ∀ c ∈ (putWords [] R).head?,
    match W with
    | [] => c.data.length = 1
    | w :: ws => c.Takes w.1 → ws = []

/-- The route's part `P` of a finished column, for the route words `R`. -/
structure RoutePart (R : List (ℕ × ℕ)) (P : List (Chunk ℕ)) : Prop where
  length : (slots P).length = (slots (putWords [] R)).length
  last : lastCtrl P = lastCtrl (putWords [] R)
  writes : chunkWrites P = chunkWrites (putWords [] R)
  valid : ∀ c ∈ P, c.Valid
  plain : ∀ c ∈ P.tail, c.op = 0

theorem routePart_self (R : List (ℕ × ℕ)) : RoutePart R (putWords [] R) :=
  ⟨rfl, rfl, rfl, putWords_nil_valid R, fun c hc => putWords_nil_plain R c (mem_of_mem_tail hc)⟩

/-- A single call word that joined the route is taken out of it by finishing. -/
theorem sealed_joins {c : Chunk ℕ} (hv : c.Valid) (hop : c.op = 0) {w : ℕ × ℕ} (ht : c.Takes w.1)
    (older : List (Chunk ℕ)) : sealLast (putWord (c :: older) w) = sealLast (putWord [] w) ++ c :: older := by
  have hoff := ht.off_eq hv
  have hend := (hv.add ht w.2).end_lt
  have hpos := hv.pos
  have hlen : (c.add w.2).data.length = c.data.length + 1 := by
    rw [Chunk.add, length_append, length_singleton]
  rw [hlen, Nat.add_sub_cancel, Chunk.add] at hend
  have hfront : (c.add w.2).front = c := by
    rw [Chunk.front, hlen, Nat.add_sub_cancel, Chunk.add]
    dsimp only
    rw [take_left' rfl, ← hop]
  have hback : (c.add w.2).back = (Chunk.single w).back := by
    rw [Chunk.back, hlen, Nat.add_sub_cancel, Chunk.add, Chunk.back, Chunk.single]
    dsimp only
    rw [drop_left' rfl, hoff, Nat.mod_eq_of_lt hend]
    rfl
  rw [putWord_joins ht, sealLast_split (by omega), hfront, hback]
  rfl

/-- **A finished column whose route is intact** is the route and the finished calls. -/
theorem sealed_kept {R W : List (ℕ × ℕ)} (h : SeedKept R W) :
    ∃ P, RoutePart R P ∧ sealLast (putWords (putWords [] R) W) = sealLast (putWords [] W) ++ P ∧
      (W ≠ [] → P = putWords [] R) := by
  have hv := putWords_nil_valid R
  have hplain := putWords_nil_plain R
  have hself := routePart_self R
  unfold SeedKept at h
  generalize hP : putWords [] R = P at h hv hplain hself
  cases P with
  | nil => exact ⟨[], hP ▸ hself, by rw [append_nil], fun _ => rfl⟩
  | cons c older =>
    have hc := h c rfl
    cases W with
    | nil =>
      have hone : ¬1 < c.data.length := by
        omega
      have hvc := hv c mem_cons_self
      refine ⟨sealLast (c :: older), ⟨?_, ?_, ?_, sealLast_valid hv, ?_⟩, rfl, fun hne => absurd rfl hne⟩
      · rw [hP, sealLast_single hone, slots, slots, length_append, length_append, Chunk.slots_length,
          Chunk.slots_length, hvc.back_length]
        have := hvc.pos
        omega
      · rw [hP, sealLast_single hone]
        rfl
      · rw [hP, sealLast_writes]
      · rw [sealLast_single hone]
        exact fun b hb => hplain b (mem_cons_of_mem _ hb)
    | cons w ws =>
      refine ⟨c :: older, hP ▸ hself, ?_, fun _ => rfl⟩
      by_cases ht : c.Takes w.1
      · have hws : ws = [] := hc ht
        subst hws
        exact sealed_joins (hv c mem_cons_self) (hplain c mem_cons_self) ht older
      · have hfresh : ∀ b ∈ (c :: older).head?, ¬b.Takes w.1 := by
          intro b hb
          cases hb
          exact ht
        rw [putWords_fresh hfresh, sealLast_append (putWords_nil_ne (cons_ne_nil w ws))]

theorem SeedKept.congr {R W W' : List (ℕ × ℕ)} (h : SeedKept R W) (hoff : W.map Prod.fst = W'.map Prod.fst) :
    SeedKept R W' := by
  intro c hc
  have hW := h c hc
  cases W with
  | nil =>
    cases W' with
    | nil => exact hW
    | cons w' ws' => cases hoff
  | cons w ws =>
    cases W' with
    | nil => cases hoff
    | cons w' ws' =>
      obtain ⟨h1, h2⟩ := cons.inj hoff
      intro ht
      have hws : ws = [] := hW (h1 ▸ ht)
      rw [hws] at h2
      exact map_eq_nil_iff.1 h2.symm

/-- An accepted cut that is not misread has an intact route. -/
theorem Table.Column.shift_kept {t : Table} {k sh : ℕ} {R W : List (ℕ × ℕ)} (hC : t.Column k R W)
    (hsh : t.shift false k = some sh) (hmis : ¬Misread k R W) : SeedKept R W ∧ sh = t.prefixLen k := by
  cases hP : putWords [] R with
  | nil =>
    have hpre : t.prefixLen k = 0 := by rw [hC.prefixLen, hP]; rfl
    have hshift : t.shift false k = some 0 := by rw [Table.shift]; exact if_pos (.inr hpre)
    rw [hshift] at hsh
    cases hsh
    refine ⟨fun c hc => ?_, hpre.symm⟩
    rw [hP] at hc
    cases hc
  | cons c older =>
    have hcut : sh = t.prefixLen k := by
      rw [hC.shift_eq hP] at hsh
      split at hsh
      · cases hsh
      · exact (some.inj hsh).symm
    refine ⟨fun b hb => ?_, hcut⟩
    rw [hP] at hb
    cases hb
    have hv := putWords_nil_valid R c (by rw [hP]; exact mem_cons_self)
    rcases W with _ | ⟨w, _ | ⟨w', ws⟩⟩
    · show c.data.length = 1
      have hdrop := drop_eq_nil_iff.1 (hC.cut_empty hP hsh)
      have hpos := hv.pos
      by_contra hone
      have hlen : 1 < c.data.length := by omega
      rw [hcut, hC.prefixLen_cons hP, hC.seg, hP, putWords_nil, sealLast_split hlen, wordsOf_length,
        slots, slots,
        length_append, length_append, Chunk.slots_length, Chunk.slots_length, hv.back_length,
        c.front_length] at hdrop
      omega
    · exact fun _ => rfl
    · intro ht
      obtain ⟨hshift, -⟩ := hC.cut_several hP ht
      rw [hsh] at hshift
      by_cases hw : w.2 = rowHdr k
      · exact absurd ⟨c, older, w, w', ws, hP, rfl, ht, hw⟩ hmis
      · rw [if_pos hw] at hshift
        cases hshift

/-! ### The address words -/

/-- The words of a buffer descriptor with the address fields in. -/
def patchFields (fld : List ℕ) (ws : List (ℕ × ℕ)) : List (ℕ × ℕ) :=
  (ADDR_WORDS.zip fld).foldl (fun ws a => ws.modify a.1 fun w => (w.1, w.2 ||| a.2)) ws

/-- The words the table gives for its call `c` when the call made is `d`. -/
def patchedWords (D : Driver) (c d : Call) : List (ℕ × ℕ) :=
  let ws := (D.words c.blank).getD []
  if c.kind.isBd then (D.addrFields c.col c.row d.addr).elim ws fun fld => patchFields fld ws else ws

def patchedColumn (D : Driver) (lo k : ℕ) (calls recs : List Call) : List (ℕ × ℕ) :=
  (calls.zip recs).flatMap fun e => if e.1.col - lo = k then patchedWords D e.1 e.2 else []

/-- The last address word of the call's descriptor starts a block of four registers. -/
def BlockAligned (D : Driver) (c : Call) : Prop :=
  c.kind.isBd = true → ∀ ws w, D.words c.blank = some ws → ws[8]? = some w → w.1 % 16 = 0

/-- The address words of one entry, in the list of a segment's words. -/
def patchList (D : Driver) (k : ℕ) (l : List ℕ) (e : SbCall × Call) : List ℕ :=
  if e.1.seg = k ∧ e.1.kind.isBd then
    (D.addrFields e.1.col e.1.row e.2.addr).elim l fun fld =>
      (e.1.patch.zip fld).foldl (fun l a => l.modify a.1 (· ||| a.2)) l
  else l

/-- The buffer `p` shows the words of `l` from `sh` on. -/
def Shows (p : ℕ → ℕ) (sh : ℕ) (l : List ℕ) : Prop := ∀ i, sh + i < l.length → p i = l.getD (sh + i) 0

section Buffer

variable {D : Driver} {k sh : ℕ} {p : ℕ → ℕ} {l : List ℕ}

theorem getD_modify (l : List ℕ) (j i : ℕ) (f : ℕ → ℕ) (hi : i < l.length) :
    (l.modify j f).getD i 0 = if j = i then f (l.getD i 0) else l.getD i 0 := by
  rw [getD_eq_getElem?_getD, getD_eq_getElem?_getD, getElem?_modify, getElem?_eq_getElem hi]
  rfl

theorem Shows.modify (h : Shows p sh l) (hlen : l.length ≤ NO_PATCH) (a : ℕ × ℕ) :
    Shows (if a.1 ≠ NO_PATCH ∧ sh ≤ a.1 then Function.update p (a.1 - sh) (p (a.1 - sh) ||| a.2) else p) sh
      (l.modify a.1 (· ||| a.2)) := by
  intro i hi
  rw [length_modify] at hi
  rw [getD_modify l a.1 (sh + i) _ hi, ← h i hi]
  by_cases hidx : a.1 = sh + i
  · have hok : a.1 ≠ NO_PATCH ∧ sh ≤ a.1 := ⟨by omega, by omega⟩
    have hsub : a.1 - sh = i := by omega
    rw [if_pos hok, if_pos hidx, hsub, Function.update_self]
  · rw [if_neg hidx]
    split
    · rw [Function.update_of_ne (by omega)]
    · rfl

theorem Shows.fields (as : List (ℕ × ℕ)) : ∀ {p l}, Shows p sh l → l.length ≤ NO_PATCH →
    Shows (as.foldl (fun p a =>
      if a.1 ≠ NO_PATCH ∧ sh ≤ a.1 then Function.update p (a.1 - sh) (p (a.1 - sh) ||| a.2) else p) p) sh
      (as.foldl (fun l a => l.modify a.1 (· ||| a.2)) l) ∧
      (as.foldl (fun l a => l.modify a.1 (· ||| a.2)) l).length = l.length := by
  induction as with
  | nil => exact fun h _ => ⟨h, rfl⟩
  | cons a as ih =>
    intro p l h hl
    obtain ⟨h1, h2⟩ := ih (h.modify hl a) (by rw [length_modify]; exact hl)
    exact ⟨h1, by rw [foldl_cons, h2, length_modify]⟩

theorem Shows.entry (h : Shows p sh l) (hlen : l.length ≤ NO_PATCH) (e : SbCall × Call) :
    Shows (patchEntry D k sh p e) sh (patchList D k l e) ∧ (patchList D k l e).length = l.length := by
  unfold patchEntry patchList
  split
  · cases D.addrFields e.1.col e.1.row e.2.addr with
    | none => exact ⟨h, rfl⟩
    | some fld => exact Shows.fields _ h hlen
  · exact ⟨h, rfl⟩

/-- **Patching the buffer** is patching the list of words. -/
theorem Shows.patch (es : List (SbCall × Call)) : ∀ {p l}, Shows p sh l → l.length ≤ NO_PATCH →
    Shows (es.foldl (patchEntry D k sh) p) sh (es.foldl (patchList D k) l) ∧
      (es.foldl (patchList D k) l).length = l.length := by
  induction es with
  | nil => exact fun h _ => ⟨h, rfl⟩
  | cons e es ih =>
    intro p l h hl
    obtain ⟨h1, h2⟩ := h.entry (D := D) (k := k) hl e
    obtain ⟨h3, h4⟩ := ih h1 (h2.trans_le hl)
    exact ⟨h3, h4.trans h2⟩

end Buffer

section Entries

variable {D : Driver} {hdr : ℕ} {cs P : List (Chunk ℕ)} {ws : List (ℕ × ℕ)}

theorem modify_append_left {α : Type} {l : List α} {i : ℕ} (h : i < l.length) (r : List α) (f : α → α) :
    (l ++ r).modify i f = l.modify i f ++ r := by
  obtain ⟨l₁, a, l₂, rfl, rfl, hmod⟩ := exists_of_modify f h
  rw [hmod, append_assoc, append_assoc]
  exact modify_middle l₁ (l₂ ++ r) a f

theorem map_fst_modify (ws : List (ℕ × ℕ)) (i : ℕ) (f : ℕ → ℕ) :
    (ws.modify i fun w => (w.1, f w.2)).map Prod.fst = ws.map Prod.fst := by
  apply ext_getElem?
  intro j
  rw [getElem?_map, getElem?_map, getElem?_modify]
  cases ws[j]? with
  | none => rfl
  | some w =>
    show some (if i = j then (w.1, f w.2) else w).1 = some w.1
    split <;> rfl

theorem map_fst_patchFields (fld : List ℕ) (ws : List (ℕ × ℕ)) :
    (patchFields fld ws).map Prod.fst = ws.map Prod.fst := by
  unfold patchFields
  generalize ADDR_WORDS.zip fld = as
  induction as generalizing ws with
  | nil => rfl
  | cons a as ih =>
    rw [foldl_cons, ih]
    exact map_fst_modify ws a.1 (· ||| a.2)

theorem positions_getD {i : ℕ} (hi : i < ws.length) :
    (positions cs ws).getD i 0 = (slots (putWords cs (ws.take (i + 1)))).length - 1 := by
  rw [positions, getD_eq_getElem?_getD, getElem?_map, getElem?_range hi]
  rfl

theorem patch_positions (hlike : Alike cs P) (hv : ∀ c ∈ P, c.Valid) (rest : List (ℕ × ℕ))
    (hlen : ws.length = 9) (halign : ∀ w, ws[8]? = some w → w.1 % 16 = 0) (as : List (ℕ × ℕ)) :
    ∀ vs : List (ℕ × ℕ), vs.map Prod.fst = ws.map Prod.fst → (∀ a ∈ as, a.1 ≤ 8) →
    as.foldl (fun l a => l.modify ((positions cs ws).getD a.1 0) (· ||| a.2))
        (wordsOf hdr (sealLast (putWords P (vs ++ rest)))) =
      wordsOf hdr (sealLast (putWords P
        (as.foldl (fun ws a => ws.modify a.1 fun w => (w.1, w.2 ||| a.2)) vs ++ rest))) := by
  induction as with
  | nil => exact fun _ _ _ => rfl
  | cons a as ih =>
    intro vs hvs has
    have ha := has a mem_cons_self
    have hvlen : vs.length = 9 := by rw [← hlen, ← length_map (f := Prod.fst), hvs, length_map]
    have hi : a.1 < (vs ++ rest).length := by rw [length_append]; omega
    have htake : ((vs ++ rest).take (a.1 + 1)).map Prod.fst = (ws.take (a.1 + 1)).map Prod.fst := by
      rw [take_append_of_le_length (by omega), map_take, map_take, hvs]
    have hpos : (positions cs ws).getD a.1 0 =
        (slots (putWords P ((vs ++ rest).take (a.1 + 1)))).length - 1 := by
      rw [positions_getD (by omega), (hlike.putWords htake.symm).slots_length]
    have hlast : a.1 + 1 < (vs ++ rest).length ∨ ((vs ++ rest).get ⟨a.1, hi⟩).1 % 16 = 0 := by
      by_cases h8 : a.1 = 8
      · right
        have hget : ((vs ++ rest).get ⟨a.1, hi⟩).1 = ((vs.map Prod.fst).getD 8 0) := by
          simp [h8, hvlen]
        have hw : ws[8]? = some (ws.get ⟨8, by omega⟩) := by simp [hlen]
        rw [hget, hvs]
        have := halign _ hw
        simpa [hlen] using this
      · left
        rw [length_append]
        omega
    rw [foldl_cons, foldl_cons, hpos, modify_word hv _ hi hlast, modify_append_left (by omega)]
    refine ih _ ?_ fun b hb => has b (mem_cons_of_mem _ hb)
    exact (map_fst_modify vs a.1 (· ||| a.2)).trans hvs

theorem recordCall_length {c : Call} (h : recordCall D c = some ws) (hbd : c.kind.isBd = true) :
    ws.length = 9 := by
  unfold recordCall at h
  split at h
  · cases h
  · obtain ⟨ws', h1, h2⟩ := bind_eq_some_iff.1 h
    split at h2
    · cases h2
    · rename_i hno
      cases h2
      by_contra hlen
      exact hno (.inr ⟨hbd, fun h => hlen h.1⟩)

/-- **One entry**: patching it is encoding the call's patched words. -/
theorem patchList_entry {c d : Call} {k : ℕ} (hrec : recordCall D c = some ws) (halign : BlockAligned D c)
    (hlike : Alike cs P) (hv : ∀ c ∈ P, c.Valid) (rest : List (ℕ × ℕ)) :
    patchList D k (wordsOf hdr (sealLast (putWords P (ws ++ rest)))) (entryOf c k (positions cs ws), d) =
      wordsOf hdr (sealLast (putWords P (patchedWords D c d ++ rest))) := by
  have hws := recordCall_words hrec
  have hget : (D.words c.blank).getD [] = ws := by rw [hws]; rfl
  unfold patchList patchedWords
  simp only [hget]
  by_cases hbd : c.kind.isBd = true
  · have hin : (entryOf c k (positions cs ws)).seg = k ∧ (entryOf c k (positions cs ws)).kind.isBd =
      true := ⟨rfl, hbd⟩
    have hpatch : (entryOf c k (positions cs ws)).patch = ADDR_WORDS.map fun w =>
        (positions cs ws).getD w 0 :=
      if_pos hbd
    rw [if_pos hin, if_pos hbd]
    show (D.addrFields c.col c.row d.addr).elim _ _ = _
    cases D.addrFields c.col c.row d.addr with
    | none => rfl
    | some fld =>
      show ((entryOf c k (positions cs ws)).patch.zip fld).foldl _ _ = _
      rw [hpatch, zip_map_left, foldl_map]
      refine patch_positions hlike hv rest (recordCall_length hrec hbd) (halign hbd ws · hws) _ ws rfl ?_
      intro a ha
      have hmem := (of_mem_zip ha).1
      simp only [ADDR_WORDS, mem_cons, not_mem_nil, or_false] at hmem
      omega
  · have hout : ¬((entryOf c k (positions cs ws)).seg = k ∧
        (entryOf c k (positions cs ws)).kind.isBd = true) :=
      fun h => hbd h.2
    rw [if_neg hout, if_neg hbd]

theorem map_fst_patchedWords (c d : Call) :
    (patchedWords D c d).map Prod.fst = ((D.words c.blank).getD []).map Prod.fst := by
  unfold patchedWords
  dsimp only
  split
  · cases D.addrFields c.col c.row d.addr with
    | none => rfl
    | some fld => exact map_fst_patchFields fld _
  · rfl

/-- The call words a table's segment `k` is built from. -/
def callWords (D : Driver) (lo k : ℕ) (calls : List Call) : List (ℕ × ℕ) :=
  calls.flatMap fun c => if c.col - lo = k then (D.words c.blank).getD [] else []

theorem map_fst_patchedColumn (lo k : ℕ) (calls : List Call) :
    ∀ recs : List Call, recs.length = calls.length →
    (patchedColumn D lo k calls recs).map Prod.fst = (callWords D lo k calls).map Prod.fst := by
  induction calls with
  | nil => exact fun _ _ => rfl
  | cons c calls ih =>
    intro recs hlen
    cases recs with
    | nil => cases hlen
    | cons d recs =>
      have hrest := ih recs (Nat.succ.inj hlen)
      have hl : patchedColumn D lo k (c :: calls) (d :: recs) =
          (if c.col - lo = k then patchedWords D c d else []) ++ patchedColumn D lo k calls recs :=
            flatMap_cons
      have hr : callWords D lo k (c :: calls) =
          (if c.col - lo = k then (D.words c.blank).getD [] else []) ++ callWords D lo k calls := flatMap_cons
      rw [hl, hr, map_append, map_append, hrest]
      split
      · rw [map_fst_patchedWords]
      · rfl

/-- **All entries**: patching them is encoding the patched words of the column. -/
theorem patchList_calls {lo hi k : ℕ} (calls : List Call) : ∀ {st st' : Segs} {es : List SbCall}
    {cs : ℕ → List (Chunk ℕ)} {P : List (Chunk ℕ)} {recs : List Call}, buildCalls D lo hi calls st =
      some (st', es) →
    st.Hold cs → Alike (cs k) P → (∀ c ∈ P, c.Valid) → (∀ c ∈ calls, BlockAligned D c) →
    recs.length = calls.length →
    (es.zip recs).foldl (patchList D k) (wordsOf hdr (sealLast (putWords P (callWords D lo k calls)))) =
      wordsOf hdr (sealLast (putWords P (patchedColumn D lo k calls recs))) := by
  induction calls with
  | nil =>
    intro st st' es cs P recs h _ _ _ _ _
    cases h
    rfl
  | cons c calls ih =>
    intro st st' es cs P recs h hst hlike hv halign hlen
    obtain ⟨ws, h1, h2⟩ := bind_eq_some_iff.1 h
    obtain ⟨r, h3, h4⟩ := bind_eq_some_iff.1 h2
    obtain ⟨q, h5, h6⟩ := map_eq_some_iff.1 h4
    cases h6
    cases recs with
    | nil => cases hlen
    | cons d recs =>
      have hws : (D.words c.blank).getD [] = ws := by rw [recordCall_words h1]; rfl
      have hpos := appendRecords_positions ws h3 hst
      have hst1 := (appendRecords_hold _ h3 hst).2
      simp only [colWrites_call] at hst1
      have halign' : ∀ b ∈ calls, BlockAligned D b := fun b hb => halign b (mem_cons_of_mem _ hb)
      have hl : patchedColumn D lo k (c :: calls) (d :: recs) =
          (if c.col - lo = k then patchedWords D c d else []) ++ patchedColumn D lo k calls recs :=
            flatMap_cons
      have hr : callWords D lo k (c :: calls) = (if c.col - lo = k then ws else []) ++
          callWords D lo k calls := by
        rw [← hws]
        exact flatMap_cons
      rw [hl, hr, zip_cons_cons, foldl_cons, hpos]
      by_cases hk : c.col - lo = k
      · -- the entry is of this column: its words are patched, the shape stays
        have hoff : ws.map Prod.fst = (patchedWords D c d).map Prod.fst := by rw [map_fst_patchedWords, hws]
        rw [if_pos hk, if_pos hk, hk, patchList_entry h1 (halign c mem_cons_self) hlike hv, putWords_split,
          putWords_split]
        refine ih h5 hst1 ?_ (putWords_valid hv _) halign' (Nat.succ.inj hlen)
        rw [if_pos hk]
        exact hlike.putWords hoff
      · have hskip : ∀ l : List ℕ, patchList D k l (entryOf c (c.col - lo)
            (positions (cs (c.col - lo)) ws), d) = l :=
          fun l => if_neg fun h => hk h.1
        rw [if_neg hk, if_neg hk, hskip, nil_append, nil_append]
        refine ih h5 hst1 ?_ hv halign' (Nat.succ.inj hlen)
        rw [if_neg hk]
        exact hlike

end Entries

/-! ### The overlaid segment -/

section Overlay

variable {D : Driver} {F : Fabric} {p : ℕ → ℕ → ℕ} {cs recs : List Call} {t : Table} {k sh : ℕ} {s s' : Seg}

theorem buildWindow_calls (hb : buildWindow D F p cs = some t) :
    t.lo = F.lo ∧ t.hi = F.hi ∧
      ∃ st, buildCalls D F.lo F.hi (windowCalls F cs) (routeSegs F p) = some (st, t.calls) := by
  unfold buildWindow at hb
  split at hb
  · obtain ⟨r, h1, h2⟩ := bind_eq_some_iff.1 hb
    split at h2
    · cases h2
    · cases h2
      exact ⟨rfl, rfl, r.1, h1⟩
  · cases hb

theorem buildCalls_entries {lo hi : ℕ} (calls : List Call) : ∀ {st st' : Segs} {es : List SbCall},
    buildCalls D lo hi calls st = some (st', es) →
    List.Forall₂ (fun c e => e.col = c.col ∧ e.row = c.row) calls es := by
  induction calls with
  | nil =>
    intro st st' es h
    cases h
    exact .nil
  | cons c calls ih =>
    intro st st' es h
    obtain ⟨ws, -, h2⟩ := bind_eq_some_iff.1 h
    obtain ⟨r, -, h4⟩ := bind_eq_some_iff.1 h2
    obtain ⟨q, h5, h6⟩ := map_eq_some_iff.1 h4
    cases h6
    exact .cons ⟨rfl, rfl⟩ (ih h5)

theorem applyColumn_some {routeNow : Bool} (h : applyColumn D t recs routeNow k s = some s') :
    ∃ sh, t.shift routeNow k = some sh ∧ s' = overlay D t recs k sh s ∧ t.segLen k ≤ SEG_WORDS ∧
      (s.pw ≠ 0 → sh = 0) ∧ (range s.pw).map s.p = (t.seg k).take s.pw := by
  unfold applyColumn at h
  split at h
  · cases h
  · rename_i hguard
    obtain ⟨sh, hsh, h⟩ := bind_eq_some_iff.1 h
    dsimp only at h
    generalize hheld : (if sh = 0 then t.prefixLen k else 0) = held at h
    split at h
    · rename_i hkeep
      obtain ⟨hpw, hwords⟩ := hkeep
      rw [← hpw] at hwords
      refine ⟨sh, hsh, (some.inj h).symm, by omega, fun hne => ?_, hwords⟩
      by_contra hz
      rw [if_neg hz] at hheld
      omega
    · cases h

theorem overlay_words (hheld : s.pw ≠ 0 → sh = 0)
    (hkeep : (range s.pw).map s.p = (t.seg k).take s.pw) (hfit : t.segLen k ≤ SEG_WORDS) :
    (overlay D t recs k sh s).words = ((t.calls.zip recs).foldl (patchList D k) (t.seg k)).drop sh := by
  have hshow : Shows (fun i => if s.pw ≤ i ∧ i < t.segLen k - sh then (t.seg k).getD (sh + i) 0 else s.p i) sh
      (t.seg k) := by
    intro i hi
    have hlt : i < t.segLen k - sh := by rw [Table.segLen]; omega
    by_cases hle : s.pw ≤ i
    · exact if_pos ⟨hle, hlt⟩
    · -- a kept word: it is the table's, and nothing is cut
      have hsh := hheld (by omega)
      have hget := congrArg (·[i]?) hkeep
      simp only [getElem?_map, getElem?_range (Nat.lt_of_not_le hle), getElem?_take,
        if_pos (Nat.lt_of_not_le hle), map_some] at hget
      have hold : ¬(s.pw ≤ i ∧ i < t.segLen k - sh) := fun h => hle h.1
      show (if s.pw ≤ i ∧ i < t.segLen k - sh then _ else _) = _
      rw [if_neg hold, hsh, zero_add, getD_eq_getElem?_getD, ← hget]
      rfl
  obtain ⟨hfinal, hlen⟩ := hshow.patch (D := D) (k := k) (t.calls.zip recs)
    (le_trans hfit (by decide : SEG_WORDS ≤ NO_PATCH))
  apply ext_getElem?
  intro i
  show ((range (t.segLen k - sh)).map (aotPatch D t recs k sh _))[i]? = _
  rw [getElem?_map, getElem?_drop]
  by_cases hi : i < t.segLen k - sh
  · have hidx : sh + i < ((t.calls.zip recs).foldl (patchList D k) (t.seg k)).length := by
      rw [hlen]
      rw [Table.segLen] at hi
      omega
    rw [getElem?_range hi, getElem?_eq_getElem hidx]
    have hval := hfinal i hidx
    rw [getD_eq_getElem _ _ hidx] at hval
    exact congrArg some hval
  · have hout : ((t.calls.zip recs).foldl (patchList D k) (t.seg k)).length ≤ sh + i := by
      rw [hlen]
      rw [Table.segLen] at hi
      omega
    rw [getElem?_eq_none hout, getElem?_eq_none (by rw [length_range]; omega)]
    rfl

theorem slots_eq_nil {α : Type} {cs : List (Chunk α)} (h : (slots cs).length = 0) : cs = [] := by
  cases cs with
  | nil => rfl
  | cons c cs =>
    rw [slots, length_append, c.slots_length] at h
    omega

theorem lastCtrl_lt {α : Type} {cs : List (Chunk α)} (h : cs ≠ []) : lastCtrl cs < (slots cs).length := by
  obtain ⟨c, cs, rfl⟩ := exists_cons_of_ne_nil h
  rw [lastCtrl, slots, length_append, c.slots_length]
  omega

/-- **An overlaid column** holds the patched call words, finished: after the route when
this window routes, alone otherwise. -/
theorem applyColumn_holds (hb : buildWindow D F p cs = some t)
    (halign : ∀ c ∈ windowCalls F cs, BlockAligned D c)
    (hrecs : recs.length = t.calls.length) {routeNow : Bool}
    (hmis : routeNow = false → ¬Misread k (tableRoute F p k) (tableWords D F cs k))
    (h : applyColumn D t recs routeNow k s = some s') :
    s'.Holds (SEG_WORDS + 2) (rowHdr k)
      (sealLast (putWords (if routeNow then putWords [] (tableRoute F p k) else [])
      (patchedColumn D F.lo k (windowCalls F cs) recs))) := by
  have hC := buildWindow_column hb k
  obtain ⟨-, -, st, hcalls⟩ := buildWindow_calls hb
  have hlen : recs.length = (windowCalls F cs).length :=
    by rw [hrecs, (buildCalls_entries _ hcalls).length_eq]
  have hpatch : (t.calls.zip recs).foldl (patchList D k) (wordsOf (rowHdr k) _) = _ :=
    patchList_calls (windowCalls F cs) hcalls (routeSegs_hold F p) (Alike.refl _)
      (putWords_nil_valid (tableRoute F p k)) halign hlen
  have hoff := (map_fst_patchedColumn (D := D) F.lo k (windowCalls F cs) recs hlen).symm
  obtain ⟨sh, hsh, rfl, hfit, hheld, hkeep⟩ := applyColumn_some h
  have hwords : (overlay D t recs k sh s).words = _ := overlay_words hheld hkeep hfit
  generalize hR : tableRoute F p k = R at hC hmis hpatch
  change (callWords D F.lo k (windowCalls F cs)).map Prod.fst = _ at hoff
  change t.Column k R (callWords D F.lo k (windowCalls F cs)) at hC
  change routeNow = false → ¬Misread k R (callWords D F.lo k (windowCalls F cs)) at hmis
  generalize callWords D F.lo k (windowCalls F cs) = W at hoff hC hmis hpatch
  generalize patchedColumn D F.lo k (windowCalls F cs) recs = W' at hoff hpatch ⊢
  have hlike : Alike (sealLast (putWords (putWords [] R) W)) (sealLast (putWords (putWords [] R) W')) :=
    ((Alike.refl _).putWords hoff).sealLast
  -- the finished column is what is sent, after what is cut off
  have hcut : ∃ Q, sealLast (putWords (putWords [] R) W') =
      sealLast (putWords (if routeNow then putWords [] R else []) W') ++ Q ∧ sh = (slots Q).length := by
    cases routeNow with
    | true =>
      have hzero : t.shift true k = some 0 := by rw [Table.shift]; exact if_pos (.inl rfl)
      rw [hzero] at hsh
      cases hsh
      exact ⟨[], (append_nil _).symm, rfl⟩
    | false =>
      obtain ⟨hkept, hsh'⟩ := hC.shift_kept hsh (hmis rfl)
      obtain ⟨Q, hQ, heq, -⟩ := sealed_kept (hkept.congr hoff)
      exact ⟨Q, heq, by rw [hsh', hC.prefixLen, hQ.length]⟩
  obtain ⟨Q, hQ, rfl⟩ := hcut
  have hvalid := sealLast_valid (putWords_valid (putWords_nil_valid R) W')
  have hsl := hlike.slots_length
  have hsegLen : t.segLen k = (slots (sealLast (putWords (putWords [] R) W))).length := by
    rw [Table.segLen, hC.seg, wordsOf_length]
  have hlast := hlike.lastCtrl_eq
  rw [hQ] at hsl hlast hvalid
  generalize hX : sealLast (putWords (if routeNow then putWords [] R else []) W') = X at hQ hsl hlast hvalid ⊢
  have hlenX : t.segLen k - (slots Q).length = (slots X).length := by
    rw [hsegLen, hsl, slots_append, length_append]
    omega
  refine ⟨?_, fun c hc => hvalid c (mem_append_left _ hc), ?_, .inr ?_⟩
  · rw [hwords, hC.seg, hpatch, hQ, wordsOf_append]
    exact drop_left' (wordsOf_length _ _)
  · show (if t.segLen k - (slots Q).length ≠ 0 then u32sub (t.segLast k) (slots Q).length
      else RT_CPE_NONE) = _
    rw [hlenX]
    by_cases hne : X = []
    · rw [hne]
      rfl
    · have hpos : (slots X).length ≠ 0 := fun h => hne (slots_eq_nil h)
      have hlt := lastCtrl_lt hne
      have hbound : t.segLen k < 2 ^ 32 := lt_of_le_of_lt hfit (by decide)
      rw [if_pos hpos, hC.segLast, hlast, lastCtrl_append hne, u32sub_eq (by omega) (by omega)]
      omega
  · show t.segLen k - (slots Q).length + 2 ≤ SEG_WORDS + 2
    omega

end Overlay

end AieHlc.Shim
