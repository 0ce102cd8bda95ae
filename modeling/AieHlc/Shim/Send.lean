import AieHlc.Shim.Begin

/-!
# What a window sends

With no table, a window sends the return route when it sets it up, and then the writes
of its calls, in order. A table must not change that. It does when the words it stands
for are not those of the calls made, or when the route's words were cut from a finished
segment whose end finishing or coalescing had changed.

* `tracks`: what was sent and what the segments hold are the effects so far.
* `Noted`: a window all of whose calls matched.
* `Launch.Faithful`: the condition under which the table is harmless.
* `window_sends`: then every column receives the route and the calls.
-/

namespace AieHlc.Shim

open Option List AieHlc.Word AieHlc.Packet

variable {cs : List Call} {a : Table} {p : ℕ → ℕ → ℕ}

/-- This window sets up the route. -/
def Launch.Routes (D : Driver) (L : Launch) (s : Sb) : Prop := (L.opened D s).routeNow = true

instance (D : Driver) (L : Launch) (s : Sb) : Decidable (L.Routes D s) := inferInstanceAs (Decidable (_ = _))

/-- The commit of this window uses the table's words. -/
def Launch.Applies (D : Driver) (L : Launch) (s : Sb) : Prop :=
  ∃ t, (L.called D s).aot = some t ∧ (L.called D s).aotFailed = false ∧
    (aotApply D t (L.called D s)).isSome = true

/-- What column `k` is to receive: the route if this window sets it up, then the calls. -/
def Launch.expected (D : Driver) (L : Launch) (s : Sb) (k : ℕ) : List Effect :=
  (if L.Routes D s then wordEffects (columnWords (L.F.lo + k) L.F.ret) else []) ++
    callsEffects D L.F L.calls k

/-- Every column receives what it is to receive. -/
def Launch.Sends (D : Driver) (L : Launch) (s : Sb) : Prop :=
  ∃ os, (L.run D s).out = s.out ++ os ∧ ∀ k < L.F.ncols, received D L.F k os = some (L.expected D s k)

/-- When a table built from the buffers `p` and the calls `cs` is harmless. A window that
sets up the route needs the route in the table, and its part intact unless the whole
table is used. A window that uses the table needs entries that stand for the calls made,
with their address words in place, and no misread cut. -/
structure Launch.Faithful (D : Driver) (L : Launch) (s : Sb) (p : ℕ → ℕ → ℕ) (cs : List Call) : Prop where
  encoded : L.Routes D s → (appendRecords L.F.lo L.F.hi L.F.ret (resetSegs p)).isSome = true
  seeds : L.Routes D s → ¬L.Applies D s →
    ∀ k < L.F.ncols, SeedKept (tableRoute L.F p k) (tableWords D L.F cs k)
  aligned : L.Applies D s → ∀ c ∈ windowCalls L.F cs, BlockAligned D c
  entries : L.Applies D s → List.Forall₂ (fun c d => D.words d = some (patchedWords D c d))
    (windowCalls L.F cs)
    (rowCalls L.F L.calls)
  cut : L.Applies D s → ¬L.Routes D s →
    ∀ k < L.F.ncols, ¬Misread k (tableRoute L.F p k) (tableWords D L.F cs k)

/-! ### Executed calls -/

/-- A property of what the segments hold, of the outputs and of the effects so far. -/
abbrev Account := (ℕ → List (Chunk ℕ)) → List Output → (ℕ → List Effect) → Prop

/-- The account `G` holds of the window, for the outputs since `base` and the effects `X`. -/
structure Accounted (F : Fabric) (G : Account) (base : List Output) (s : Sb)
    (X : ℕ → List Effect) : Prop where
  active : s.active = true
  lo : s.lo = F.lo
  hi : s.hi = F.hi
  sent : ∃ cs os, s.seg.Hold cs ∧ s.out = base ++ os ∧ G cs os X

/-- An account that a call keeps, whether its words join a segment or it goes to the driver. -/
structure Account.Closed (G : Account) (D : Driver) (F : Fabric) (E : Env) (ok : Call → Prop) : Prop where
  put : ∀ {cs os X c ws}, G cs os X → (∀ k, ∀ x ∈ cs k, x.Valid) → ok c →
    inRange F.lo F.hi c.col c.row = true →
    D.words c = some ws → G (fun k => putWords (cs k) (if c.col - F.lo = k then ws else [])) os
      fun k => X k ++ callEffects D F k c
  kick : ∀ {cs os X s}, G cs os X → s.seg.Kept s.ncols cs → s.ncols = F.ncols →
    ∃ os', (rtSbKick E s).out = s.out ++ os' ∧ G (fun _ => []) (os ++ os') X
  direct : ∀ {cs os X c}, G cs os X → (∀ k, cs k = [] ∨ callEffects D F k c = []) →
    G cs (os ++ [.direct c]) fun k => X k ++ callEffects D F k c

/-- What was sent and what the segments hold make up the effects. -/
def tracks (D : Driver) (F : Fabric) : Account := fun cs os X =>
  ∀ k < F.ncols, ∃ done, received D F k os = some done ∧ X k = done ++ wordEffects (chunkWrites (cs k))

section Executed

variable {D : Driver} {F : Fabric} {E : Env} {G : Account} {ok : Call → Prop} {base : List Output} {s : Sb}
  {X : ℕ → List Effect} {c : Call}

theorem inRange_iff {lo hi col row : ℕ} : inRange lo hi col row = true ↔ row = 0 ∧ lo ≤ col ∧ col ≤ hi := by
  rw [inRange, Bool.and_eq_true, Bool.and_eq_true, beq_iff_eq, decide_eq_true_eq,
    decide_eq_true_eq, and_assoc]

theorem callEffects_words {ws : List (ℕ × ℕ)} (hin : inRange F.lo F.hi c.col c.row = true)
    (hws : D.words c = some ws)
    (k : ℕ) : callEffects D F k c = wordEffects (if c.col - F.lo = k then ws else []) := by
  have hcol := (inRange_iff.1 hin).2.1
  by_cases hk : c.col - F.lo = k
  · have heq : inRange F.lo F.hi c.col c.row = true ∧ c.col = F.lo + k := ⟨hin, by omega⟩
    rw [callEffects, if_pos heq, if_pos hk, hws]
    rfl
  · have hne : ¬(inRange F.lo F.hi c.col c.row = true ∧ c.col = F.lo + k) := fun h => hk (by omega)
    rw [callEffects, if_neg hne, if_neg hk]
    rfl

section

variable (hG : G.Closed D F E ok) (h : Accounted F G base s X)

include h

theorem Accounted.inWindow (c : Call) : s.inWindow c = inRange F.lo F.hi c.col c.row := by
  rw [Sb.inWindow, h.active, h.lo, h.hi, Bool.true_and]

include hG

theorem Accounted.kicked : ∃ os, (rtSbKick E s).out = base ++ os ∧ G (fun _ => []) os X := by
  obtain ⟨cs, os, hhold, hout, hacc⟩ := h.sent
  have hn : s.ncols = F.ncols := by rw [Sb.ncols, h.lo, h.hi, Fabric.ncols]
  obtain ⟨os', hout', hacc'⟩ := hG.kick hacc (hhold.kept s.ncols) hn
  exact ⟨os ++ os', by rw [hout', hout, append_assoc], hacc'⟩

/-- **A call adds its effects**, however it is executed. -/
theorem Accounted.call (c : Call) (hc : ok c) :
    Accounted F G base (rtSbCall D E s c) fun k => X k ++ callEffects D F k c := by
  obtain ⟨cs, os, hhold, hout, hacc⟩ := h.sent
  have hwin := h.inWindow c
  by_cases hin : s.inWindow c = true
  · rcases rtSbCall_cases (D := D) (E := E) hhold hin with ⟨ws, st, hws, hcall, hst⟩ | hcall
    · rw [hcall]
      rw [h.lo] at hst
      exact ⟨h.active, h.lo, h.hi, _, os, hst, hout, hG.put hacc (fun k => (hhold k).valid) hc
        (hwin ▸ hin) hws⟩
    · obtain ⟨os', hout', hacc'⟩ := h.kicked hG
      rw [hcall]
      refine ⟨h.active, h.lo, h.hi, _, os' ++ [.direct c], rtSbKick_hold, ?_,
        hG.direct hacc' fun k => .inl rfl⟩
      rw [hout', append_assoc]
  · have hfalse : s.inWindow c = false := Bool.eq_false_iff.2 hin
    rw [rtSbCall_outside hfalse]
    refine ⟨h.active, h.lo, h.hi, cs, os ++ [.direct c], hhold, ?_, hG.direct hacc fun k => .inr ?_⟩
    · rw [hout, append_assoc]
    · exact callEffects_outside (hwin.symm.trans hfalse) k

end

theorem Account.Closed.inv (hG : G.Closed D F E ok) (base : List Output) :
    CallInv D F E ok (Accounted F G base) where
  window := fun h c => h.inWindow c
  notes := fun h _ _ => ⟨h.active, h.lo, h.hi, h.sent⟩
  call := fun h c hc => h.call hG c hc

theorem tracks_closed : (tracks D F).Closed D F E fun _ => True where
  put := by
    intro cs os X c ws hacc hvalid _ hin hws k hk
    obtain ⟨done, hdone, hX⟩ := hacc k hk
    refine ⟨done, hdone, ?_⟩
    dsimp only
    rw [hX, wordEffects_putWords (hvalid k), callEffects_words hin hws, append_assoc]
  kick := by
    intro cs os X s hacc hkept hn
    obtain ⟨os', hout, -, hrec⟩ := kick_received (D := D) (F := F) (E := E) hkept
    refine ⟨os', hout, fun k hk => ?_⟩
    obtain ⟨done, hdone, hX⟩ := hacc k hk
    exact ⟨_, received_append hdone (hrec k (hn ▸ hk)), by rw [hX]; exact (append_nil _).symm⟩
  direct := by
    intro cs os X c hacc hquiet k hk
    obtain ⟨done, hdone, hX⟩ := hacc k hk
    refine ⟨_, received_append hdone (received_single _), ?_⟩
    dsimp only
    rcases hquiet k with hnone | hnone
    · rw [hX, hnone]
      simp [chunkWrites, wordEffects]
    · rw [hX, hnone, append_nil, append_nil]

end Executed

/-! ### The route at the start -/

section Start

variable {D : Driver} {F : Fabric} {p : ℕ → ℕ → ℕ} {cs : List Call} {t : Table} {s : Sb} {st : Segs}

theorem columnWords_cons (col : ℕ) (r : ℕ × ℕ × ℕ) (rs : List (ℕ × ℕ × ℕ)) :
    columnWords col (r :: rs) = (if r.1 = col then [r.2] else []) ++ columnWords col rs := by
  rw [columnWords, filterMap_cons]
  split
  · rename_i h
    split at h
    · cases h
    · rename_i hne
      rw [if_neg hne]
      rfl
  · rename_i b h
    split at h
    · rename_i heq
      cases h
      rw [if_pos heq]
      rfl
    · cases h

theorem appendRecords_range {lo hi : ℕ} (rs : List (ℕ × ℕ × ℕ)) : ∀ {st : Segs} {r : Segs × List ℕ},
    appendRecords lo hi rs st = some r → ∀ x ∈ rs, lo ≤ x.1 ∧ x.1 ≤ hi := by
  induction rs with
  | nil => exact fun _ x hx => absurd hx not_mem_nil
  | cons y rs ih =>
    intro st r h
    obtain ⟨col, off, val⟩ := y
    rw [appendRecords] at h
    split at h
    · cases h
    · rename_i hcol
      obtain ⟨st1, -, h2⟩ := bind_eq_some_iff.1 h
      obtain ⟨q, h3, -⟩ := map_eq_some_iff.1 h2
      intro x hx
      rcases mem_cons.1 hx with rfl | hx
      · show lo ≤ col ∧ col ≤ hi
        omega
      · exact ih h3 x hx

theorem colWrites_eq_columnWords {lo : ℕ} (k : ℕ) (rs : List (ℕ × ℕ × ℕ)) (h : ∀ x ∈ rs, lo ≤ x.1) :
    colWrites lo k rs = columnWords (lo + k) rs := by
  induction rs with
  | nil => rfl
  | cons r rs ih =>
    obtain ⟨col, off, val⟩ := r
    have hcol : lo ≤ col := h _ mem_cons_self
    rw [colWrites_cons, columnWords_cons, ih fun x hx => h x (mem_cons_of_mem _ hx)]
    congr 1
    exact if_congr (by constructor <;> intro h <;> omega) rfl rfl

theorem tableRoute_encoded (h : (appendRecords F.lo F.hi F.ret (resetSegs p)).isSome = true) (k : ℕ) :
    tableRoute F p k = columnWords (F.lo + k) F.ret := by
  obtain ⟨r, hr⟩ := isSome_iff_exists.1 h
  rw [tableRoute, if_pos h]
  exact colWrites_eq_columnWords k F.ret fun x hx => (appendRecords_range F.ret hr x hx).1

theorem seed_holds (hb : buildWindow D F p cs = some t) {k : ℕ}
    (hkept : SeedKept (tableRoute F p k) (tableWords D F cs k)) (q : ℕ → ℕ) :
    ∃ P, RoutePart (tableRoute F p k) P ∧ (tableWords D F cs k ≠ [] → P = putWords [] (tableRoute F p k)) ∧
      (⟨t.prefixLen k, if t.prefixLen k ≠ 0 then t.prefixLast k else RT_CPE_NONE,
        fun i => if i < t.prefixLen k then (t.seg k).getD i 0 else q i⟩ : Seg).Holds SEG_WORDS
          (rowHdr k) P := by
  have hC := buildWindow_column hb k
  have hroom := (routeSegs_hold F p k).room
  rw [(routeSegs_hold F p k).pw_eq, ← hC.prefixLen] at hroom
  obtain ⟨P, hP, heq, hfull⟩ := sealed_kept hkept
  have hlen : t.prefixLen k = (slots P).length := by rw [hC.prefixLen, hP.length]
  refine ⟨P, hP, hfull, ?_, hP.valid, ?_, hroom⟩
  · have hseg : t.seg k = wordsOf (rowHdr k) P ++ wordsOf (rowHdr k)
        (sealLast (putWords [] (tableWords D F cs k))) := by
      rw [hC.seg, heq, wordsOf_append]
    have hwl : t.prefixLen k = (wordsOf (rowHdr k) P).length := by rw [hlen, wordsOf_length]
    apply ext_getElem?
    intro i
    show ((List.range (t.prefixLen k)).map fun i => if i < t.prefixLen k then (t.seg k).getD i 0
      else q i)[i]? = _
    rw [getElem?_map]
    by_cases hi : i < t.prefixLen k
    · rw [getElem?_range hi, map_some, if_pos hi, hseg, getD_eq_getElem?_getD,
        getElem?_append_left (hwl ▸ hi), getElem?_eq_getElem (hwl ▸ hi)]
      rfl
    · rw [getElem?_eq_none (by rw [length_range]; omega), getElem?_eq_none (by omega)]
      rfl
  · show (if t.prefixLen k ≠ 0 then t.prefixLast k else RT_CPE_NONE) = lastCtrl P
    split
    · rw [hC.prefixLast, hP.last]
    · rename_i hz
      have hnil : P = [] := slots_eq_nil (by omega)
      rw [hnil]
      rfl

theorem seedSegs_some (h : seedSegs t (s.enter F) = some st) : ∀ k,
    st k = if k < F.ncols then
      ⟨t.prefixLen k, if t.prefixLen k ≠ 0 then t.prefixLast k else RT_CPE_NONE,
        fun i => if i < t.prefixLen k then (t.seg k).getD i 0 else (s.seg k).p i⟩
      else rtCpeSegReset (s.seg k).p := by
  unfold seedSegs at h
  split at h
  · cases h
    exact fun k => rfl
  · cases h

theorem seedSegs_hold (hb : buildWindow D F p cs = some t) (h : seedSegs t (s.enter F) = some st)
    (hkept : ∀ k < F.ncols, SeedKept (tableRoute F p k) (tableWords D F cs k)) :
    ∃ P, st.Hold P ∧ ∀ k < F.ncols, RoutePart (tableRoute F p k) (P k) ∧
      (tableWords D F cs k ≠ [] → P k = putWords [] (tableRoute F p k)) := by
  have hall : ∀ k, ∃ P, (st k).Holds SEG_WORDS (rowHdr k) P ∧ (k < F.ncols → RoutePart (tableRoute F p k) P ∧
      (tableWords D F cs k ≠ [] → P = putWords [] (tableRoute F p k))) := by
    intro k
    rw [seedSegs_some h k]
    by_cases hk : k < F.ncols
    · obtain ⟨P, hP, hfull, hholds⟩ := seed_holds hb (hkept k hk) (s.seg k).p
      rw [if_pos hk]
      exact ⟨P, hholds, fun _ => ⟨hP, hfull⟩⟩
    · rw [if_neg hk]
      exact ⟨[], holds_reset _, fun h => absurd h hk⟩
  choose P hP using hall
  exact ⟨P, fun k => (hP k).1, fun k hk => (hP k).2 hk⟩

end Start

/-! ### Noted calls -/

/-- All calls so far were noted: the segments are those the window began with. -/
structure Noted (D : Driver) (F : Fabric) (t : Table) (o : Sb) (ds : List Call) (s : Sb) : Prop where
  seg : s.seg = o.seg
  window : s.active = o.active ∧ s.lo = o.lo ∧ s.hi = o.hi ∧ s.routeNow = o.routeNow
  aot : s.aot = some t
  fresh : s.aotFailed = false
  recs : s.recs = rowCalls F ds
  match_entry : ∀ (i : ℕ) (c : Call), s.recs[i]? = some c → ∃ e : SbCall, t.calls[i]? = some e ∧
    e.matches c = true
  quiet : ∃ os, s.out = o.out ++ os ∧ (∀ b, .batch b ∉ os) ∧ ∀ k, received D F k os = some []

section Notes

variable {D : Driver} {F : Fabric} {E : Env} {t : Table} {o s : Sb} {ds : List Call} {c : Call}

theorem rtSbDo_failed (h : s.aotFailed = true) : (rtSbDo D E s c).aotFailed = true := by
  rcases rtSbDo_cases D E s c with ⟨-, hdo⟩ | ⟨htak, -⟩ | ⟨htak, -⟩
  · obtain ⟨st, armed, out, hc⟩ := rtSbCall_frame D E s c
    rw [hdo, hc]
    exact h
  · rw [htak.2] at h
    exact absurd h Bool.false_ne_true
  · rw [htak.2] at h
    exact absurd h Bool.false_ne_true

theorem calls_failed (calls : List Call) : ∀ {s : Sb}, s.aotFailed = true →
    (calls.foldl (rtSbDo D E) s).aotFailed = true := by
  induction calls with
  | nil => exact fun h => h
  | cons c calls ih => exact fun h => ih (rtSbDo_failed h)

/-- One more call: it is noted, or the window leaves the table. -/
theorem Noted.step (ho : ∀ c, o.inWindow c = inRange F.lo F.hi c.col c.row) (h : Noted D F t o ds s)
    (c : Call) :
    Noted D F t o (ds ++ [c]) (rtSbDo D E s c) ∨ (rtSbDo D E s c).aotFailed = true := by
  obtain ⟨hact, hlo, hhi, hnow⟩ := h.window
  have hwin : s.inWindow c = inRange F.lo F.hi c.col c.row := by
    rw [← ho c, Sb.inWindow, hact, hlo, hhi]
    rfl
  have htak : s.Taking := ⟨by rw [h.aot]; rfl, h.fresh⟩
  obtain ⟨os, hout, hbatch, hquiet⟩ := h.quiet
  rcases rtSbDo_cases D E s c with ⟨hplain, hdo⟩ | ⟨-, hin, hdo, t', e, haot, hget, hm⟩ | ⟨-, -, hdo⟩
  · left
    have hfalse : s.inWindow c = false := Bool.eq_false_iff.2 fun hin => hplain ⟨htak, hin⟩
    have hrow : inRange F.lo F.hi c.col c.row = false := hwin.symm.trans hfalse
    rw [hdo, rtSbCall_outside hfalse]
    refine ⟨h.seg, h.window, h.aot, h.fresh, ?_, h.match_entry, os ++ [.direct c], ?_,
      fun b hb => ?_, fun k => ?_⟩
    · rw [rowCalls_concat, hrow]
      exact h.recs.trans (append_nil _).symm
    · rw [hout, append_assoc]
    · rcases mem_append.1 hb with hb | hb
      · exact hbatch b hb
      · cases mem_singleton.1 hb
    · have hnone : received D F k [.direct c] = some [] := by
        rw [received_single]
        exact congrArg some (callEffects_outside hrow k)
      exact received_append (hquiet k) hnone
  · left
    rw [hdo]
    refine ⟨h.seg, h.window, h.aot, h.fresh, ?_, ?_, os, hout, hbatch, hquiet⟩
    · show s.recs ++ [c] = _
      rw [rowCalls_concat, ← hwin, hin, h.recs]
      rfl
    · intro i d hd
      rw [h.aot] at haot
      cases haot
      have hd' : (s.recs ++ [c])[i]? = some d := hd
      by_cases hi : i < s.recs.length
      · rw [getElem?_append_left hi] at hd'
        exact h.match_entry i d hd'
      · have hlast : i = s.recs.length := by
          have hlt := (List.getElem?_eq_some_iff.1 hd').1
          rw [length_append, length_singleton] at hlt
          omega
        subst hlast
        rw [getElem?_concat_length] at hd'
        cases hd'
        exact ⟨e, hget, hm⟩
  · right
    obtain ⟨st, armed, out, hr⟩ := replay_frame D E s.recs { s with aotFailed := true }
    obtain ⟨st', armed', out', hc⟩ := rtSbCall_frame D E (replay D E s) c
    rw [hdo, hc, replay, hr]

/-- **A window that never left the table** noted all its calls. -/
theorem Noted.run (ho : ∀ c, o.inWindow c = inRange F.lo F.hi c.col c.row) (calls : List Call) : ∀ {ds s},
    Noted D F t o ds s → (calls.foldl (rtSbDo D E) s).aotFailed = false →
    Noted D F t o (ds ++ calls) (calls.foldl (rtSbDo D E) s) := by
  induction calls with
  | nil =>
    intro ds s h _
    rw [append_nil]
    exact h
  | cons c calls ih =>
    intro ds s h hfinal
    rcases h.step (E := E) ho c with hnext | hfail
    · rw [append_cons]
      exact ih hnext hfinal
    · rw [foldl_cons, calls_failed calls hfail] at hfinal
      exact absurd hfinal Bool.true_eq_false.mp

end Notes

/-! ### The window as a whole -/

section Whole

variable {D : Driver} {F : Fabric} {E : Env} {t : Option Table} {o : Sb} {calls : List Call}

theorem received_direct (calls : List Call) (k : ℕ) :
    received D F k (calls.map .direct) = some (callsEffects D F calls k) := by
  induction calls with
  | nil => rfl
  | cons c calls ih =>
    rw [map_cons, received, ih]
    rfl

/-- **A window that does not use the table** ends with all its calls executed, in order. -/
theorem CallInv.resolved {ok : Call → Prop} {P : Sb → (ℕ → List Effect) → Prop} {X : ℕ → List Effect}
    (hP : CallInv D F E ok P) (ho : Opened F t o) (hX : P o X) (hok : ∀ c ∈ calls, ok c)
    (hno : ∀ a, (calls.foldl (rtSbDo D E) o).aot = some a → (calls.foldl (rtSbDo D E) o).aotFailed = false →
      aotApply D a (calls.foldl (rtSbDo D E) o) = none) :
    P (rtSbResolve D E (calls.foldl (rtSbDo D E) o)) fun k => X k ++ callsEffects D F calls k := by
  have hstart : Progress D F P X [] o := by
    by_cases htak : o.Taking
    · exact .inl ⟨htak, ho.recs, hX⟩
    · refine .inr ⟨htak, ?_⟩
      have hnil : (fun k => X k ++ callsEffects D F [] k) = X := funext fun k => append_nil (X k)
      rw [hnil]
      exact hX
  have hrun := hP.run calls hstart hok
  rw [nil_append] at hrun
  generalize calls.foldl (rtSbDo D E) o = s at hno hrun
  unfold rtSbResolve
  rcases hrun with ⟨htak, hrecs, hs⟩ | ⟨htak, hs⟩
  · obtain ⟨a, ha⟩ := isSome_iff_exists.1 htak.1
    rw [ha]
    dsimp only
    rw [if_neg (by rw [htak.2]; exact Bool.false_ne_true), hno a ha htak.2, aotFail_taking htak]
    have hrow : ∀ c ∈ s.recs, ok c := by
      rw [hrecs]
      exact fun c hc => hok c (mem_of_mem_filter hc)
    simpa only [hrecs, callsEffects_rowCalls] using hP.replayed hs hrow
  · cases haot : s.aot with
    | none => exact hs
    | some a =>
      have hfail : s.aotFailed = true := by
        by_contra h
        exact htak ⟨by rw [haot]; rfl, Bool.eq_false_iff.2 h⟩
      dsimp only
      rw [if_pos hfail]
      exact hs

theorem callsEffects_patched {k : ℕ} {ds : List Call} (h : List.Forall₂ (fun c d =>
    (d.col = c.col ∧ inRange F.lo F.hi d.col d.row = true) ∧ D.words d = some (patchedWords D c d)) cs ds) :
    callsEffects D F ds k = wordEffects (patchedColumn D F.lo k cs ds) := by
  induction h with
  | nil => rfl
  | @cons c d cs ds hcd _ ih =>
    obtain ⟨⟨hcol, hin⟩, hws⟩ := hcd
    have hl : callsEffects D F (d :: ds) k = callEffects D F k d ++ callsEffects D F ds k := flatMap_cons
    have hr : patchedColumn D F.lo k (c :: cs) (d :: ds) =
        (if c.col - F.lo = k then patchedWords D c d else []) ++ patchedColumn D F.lo k cs ds := flatMap_cons
    rw [hl, hr, wordEffects_append, ih, callEffects_words hin hws, hcol]

theorem matches_col {e : SbCall} {c : Call} (h : e.matches c = true) : e.col = c.col := by
  unfold SbCall.matches at h
  rw [Bool.and_eq_true, Bool.and_eq_true, Bool.and_eq_true] at h
  exact beq_iff_eq.1 h.1.1.2

theorem aotApply_some {s : Sb} {st : Segs} (h : aotApply D a s = some st) :
    s.recs.length = a.calls.length ∧ ∀ k < s.ncols, applyColumn D a s.recs s.routeNow k (s.seg k) =
      some (st k) := by
  unfold aotApply at h
  split at h
  · rename_i hok
    obtain ⟨-, -, hlen, -, hcols⟩ := hok
    cases h
    refine ⟨hlen, fun k hk => ?_⟩
    obtain ⟨x, hx⟩ := isSome_iff_exists.1 (hcols k hk)
    show _ = some (if k < s.ncols then _ else _)
    rw [if_pos hk, hx]
    rfl
  · cases h

theorem apply_kept {s : Sb} {st : Segs} (hb : buildWindow D F p cs = some a)
    (halign : ∀ c ∈ windowCalls F cs, BlockAligned D c) (hn : s.ncols = F.ncols)
    (h : aotApply D a s = some st)
    (hmis : s.routeNow = false → ∀ k < F.ncols, ¬Misread k (tableRoute F p k) (tableWords D F cs k)) :
    st.Kept s.ncols fun k => sealLast (putWords (if s.routeNow then putWords [] (tableRoute F p k) else [])
      (patchedColumn D F.lo k (windowCalls F cs) s.recs)) := by
  obtain ⟨hlen, hcols⟩ := aotApply_some h
  intro k hk
  exact applyColumn_holds hb halign hlen (fun hr => hmis hr k (hn ▸ hk)) (hcols k hk)

theorem noted_cols {ds : List Call} {s : Sb} (hb : buildWindow D F p cs = some a) (hn : Noted D F a o ds s)
    (hlen : s.recs.length = a.calls.length) :
    List.Forall₂ (fun c d => d.col = c.col ∧ inRange F.lo F.hi d.col d.row = true)
      (windowCalls F cs) (rowCalls F ds) := by
  obtain ⟨-, -, st, hcalls⟩ := buildWindow_calls hb
  have hent := buildCalls_entries _ hcalls
  rw [← hn.recs]
  rw [forall₂_iff_get] at hent ⊢
  refine ⟨hent.1.trans hlen.symm, fun i h1 h2 => ?_⟩
  have hget : s.recs[i]? = some (s.recs.get ⟨i, h2⟩) := getElem?_eq_getElem h2
  obtain ⟨e, he, hm⟩ := hn.match_entry i _ hget
  have hei : e = a.calls.get ⟨i, hlen ▸ h2⟩ := by
    rw [getElem?_eq_getElem (hlen ▸ h2)] at he
    exact (Option.some.inj he).symm
  refine ⟨?_, ?_⟩
  · rw [← matches_col hm, hei]
    exact (hent.2 i h1 (hlen ▸ h2)).1
  · have hmem : s.recs.get ⟨i, h2⟩ ∈ rowCalls F ds := hn.recs ▸ getElem_mem h2
    exact (mem_filter.1 hmem).2

end Whole

section Sends

variable {D : Driver} {L : Launch} {s : Sb}

theorem Launch.table_some (h : L.table D = some a) :
    ∃ p cs, L.built = some (p, cs) ∧ buildWindow D L.F p cs = some a := by
  obtain ⟨b, hb, ha⟩ := bind_eq_some_iff.1 h
  exact ⟨b.1, b.2, hb, ha⟩

/-- The effects of the route, when this window sets it up. -/
def Launch.routeEffects (D : Driver) (L : Launch) (s : Sb) (k : ℕ) : List Effect :=
  if L.Routes D s then wordEffects (columnWords (L.F.lo + k) L.F.ret) else []

theorem wordEffects_route {R : List (ℕ × ℕ)} {P : List (Chunk ℕ)} (h : RoutePart R P) :
    wordEffects (chunkWrites P) = wordEffects R := by
  have hnil : ∀ c ∈ ([] : List (Chunk ℕ)), c.Valid := fun c hc => absurd hc not_mem_nil
  rw [h.writes, wordEffects_putWords hnil]
  rfl

theorem Launch.opened_tracks (ho : Opens (L.table D) L.F s (L.opened D s))
    (hact : (L.opened D s).active = true)
    (hseeds : ∀ p cs a, L.built = some (p, cs) → buildWindow D L.F p cs = some a → L.Routes D s →
      (appendRecords L.F.lo L.F.hi L.F.ret (resetSegs p)).isSome = true ∧
        ∀ k < L.F.ncols, SeedKept (tableRoute L.F p k) (tableWords D L.F cs k)) :
    Opened L.F (L.table D) (L.opened D s) ∧
      Accounted L.F (tracks D L.F) s.out (L.opened D s) (L.routeEffects D s) := by
  have hroute : ∀ b : Bool, (L.opened D s).routeNow = b → ∀ k, L.routeEffects D s k =
      if b then wordEffects (columnWords (L.F.lo + k) L.F.ret) else [] := by
    intro b hb k
    exact if_congr (Iff.of_eq (congrArg (· = true) hb)) rfl rfl
  cases ho with
  | closed idle =>
    rw [idle.inactive] at hact
    exact absurd hact Bool.false_ne_true
  | plain opened route empty out =>
    refine ⟨opened, opened.active, opened.lo, opened.hi, _, [], empty, ?_, fun k _ => ⟨[], rfl, ?_⟩⟩
    · rw [out, append_nil]
    · exact hroute _ route k
  | seeded opened route a table q seeds out =>
    obtain ⟨p, cs, hbuilt, hb⟩ := Launch.table_some table
    obtain ⟨henc, hkept⟩ := hseeds p cs a hbuilt hb route
    obtain ⟨P, hhold, hP⟩ := seedSegs_hold hb seeds hkept
    refine ⟨opened, opened.active, opened.lo, opened.hi, P, [], hhold, ?_, fun k hk => ⟨[], rfl, ?_⟩⟩
    · rw [out, append_nil]
    · rw [wordEffects_route (hP k hk).1, tableRoute_encoded henc]
      exact hroute _ route k
  | captured opened route p pos seg out =>
    have hhold := (appendRecords_hold L.F.ret seg (resetSegs_hold p)).2
    refine ⟨opened, opened.active, opened.lo, opened.hi, _, [], hhold, ?_, fun k _ => ⟨[], rfl, ?_⟩⟩
    · rw [out, append_nil]
    · rw [wordEffects_route (routePart_self _),
        colWrites_eq_columnWords k _ fun x hx => (appendRecords_range L.F.ret seg x hx).1]
      exact hroute _ route k
  | direct opened route p fails empty out =>
    refine ⟨opened, opened.active, opened.lo, opened.hi, _, [.route L.F.ret], empty, out, fun k _ => ?_⟩
    refine ⟨_, received_single _, ?_⟩
    rw [hroute _ route k]
    exact (append_nil _).symm

theorem Launch.run_open (hact : (L.opened D s).active = true) :
    L.run D s = { rtSbKick L.env (rtSbResolve D L.env (L.called D s))
      with active := false, aot := none } := by
  obtain ⟨st, armed, out, recs, failed, h⟩ := calls_frame D L.env L.calls (L.opened D s)
  refine commit_open ?_
  rw [Launch.called, h]
  exact hact

/-- A window that does not use the table ends with its calls accounted for. -/
theorem Launch.executed {G : Account} {ok : Call → Prop} {X : ℕ → List Effect} (hG : G.Closed D L.F L.env ok)
    (hopened : Opened L.F (L.table D) (L.opened D s)) (hX : Accounted L.F G s.out (L.opened D s) X)
    (hok : ∀ c ∈ L.calls, ok c) (hno : ¬L.Applies D s) :
    ∃ os, (L.run D s).out = s.out ++ os ∧ G (fun _ => []) os fun k =>
    X k ++ callsEffects D L.F L.calls k := by
  have hfinal := (hG.inv s.out).resolved hopened hX hok ?_
  · obtain ⟨os, hout, hacc⟩ := hfinal.kicked hG
    refine ⟨os, ?_, hacc⟩
    rw [L.run_open hopened.active]
    exact hout
  · intro a ha hfresh
    by_contra hne
    exact hno ⟨a, ha, hfresh, isSome_iff_ne_none.2 hne⟩

theorem Opened.noted {F : Fabric} {o : Sb} (h : Opened F (some a) o) : Noted D F a o [] o := by
  refine ⟨rfl, ⟨rfl, rfl, rfl, rfl⟩, h.aot, h.fresh, h.recs, ?_, [], (append_nil _).symm,
    fun _ => not_mem_nil, fun _ => rfl⟩
  intro i c hc
  rw [h.recs] at hc
  cases hc

theorem Opened.inWindow {F : Fabric} {t : Option Table} {o : Sb} (h : Opened F t o) (c : Call) :
    o.inWindow c = inRange F.lo F.hi c.col c.row := by
  rw [Sb.inWindow, h.active, h.lo, h.hi, Bool.true_and]

/-- What is known of a window that used its table: the calls were noted, and the segments it sends
are overlaid with the table's words. -/
structure Launch.Overlaid (D : Driver) (L : Launch) (s : Sb) (p : ℕ → ℕ → ℕ) (cs : List Call)
    (a : Table) (st : Segs) :
    Prop where
  table : buildWindow D L.F p cs = some a
  apply : aotApply D a (L.called D s) = some st
  noted : Noted D L.F a (L.opened D s) L.calls (L.called D s)
  ncols : (L.called D s).ncols = L.F.ncols
  run : (L.run D s).out = (rtSbKick L.env { L.called D s with seg := st }).out

theorem Launch.applied (hopened : Opened L.F (L.table D) (L.opened D s)) (happ : L.Applies D s) :
    ∃ p cs a st, L.built = some (p, cs) ∧ L.Overlaid D s p cs a st := by
  obtain ⟨a, haot, hfresh, hsome⟩ := happ
  obtain ⟨st, hst⟩ := isSome_iff_exists.1 hsome
  obtain ⟨x, y, z, u, v, hframe⟩ := calls_frame D L.env L.calls (L.opened D s)
  have htable : L.table D = some a := by
    rw [← haot, ← hopened.aot, Launch.called, hframe]
  obtain ⟨p, cs, hbuilt, hb⟩ := Launch.table_some htable
  have hnoted : Noted D L.F a (L.opened D s) L.calls (L.called D s) :=
    (htable ▸ hopened).noted.run (E := L.env) hopened.inWindow L.calls hfresh
  refine ⟨p, cs, a, st, hbuilt, hb, hst, hnoted, ?_, ?_⟩
  · rw [Sb.ncols, hnoted.window.2.1, hnoted.window.2.2.1, hopened.lo, hopened.hi, Fabric.ncols]
  · rw [L.run_open hopened.active]
    unfold rtSbResolve
    rw [haot]
    dsimp only
    rw [if_neg (by rw [hfresh]; exact Bool.false_ne_true), hst, ← haot]

/-- The overlaid segments, if the table's address words are in place and its cut is not misread. -/
theorem Launch.Overlaid.kept {st : Segs} (h : L.Overlaid D s p cs a st)
    (halign : ∀ c ∈ windowCalls L.F cs, BlockAligned D c)
    (hcut : ¬L.Routes D s → ∀ k < L.F.ncols, ¬Misread k (tableRoute L.F p k) (tableWords D L.F cs k)) :
    st.Kept (L.called D s).ncols fun k => sealLast (putWords
      (if (L.called D s).routeNow then putWords [] (tableRoute L.F p k) else [])
      (patchedColumn D L.F.lo k (windowCalls L.F cs) (L.called D s).recs)) := by
  refine apply_kept h.table halign h.ncols h.apply fun hr => hcut ?_
  unfold Launch.Routes
  rw [← h.noted.window.2.2.2, hr]
  exact Bool.false_ne_true

theorem Launch.sends_applied (hopened : Opened L.F (L.table D) (L.opened D s))
    (hout : (L.opened D s).out = s.out)
    (happ : L.Applies D s) (h : ∀ p cs, L.built = some (p, cs) → (buildWindow D L.F p cs).isSome = true →
      L.Faithful D s p cs) : L.Sends D s := by
  obtain ⟨p, cs, a, st, hbuilt, hO⟩ := L.applied hopened happ
  have hF := h p cs hbuilt (by rw [hO.table]; rfl)
  have hnow := hO.noted.window.2.2.2
  obtain ⟨os, hos, -, hquiet⟩ := hO.noted.quiet
  obtain ⟨os', hos', -, hrec⟩ := kick_received (D := D) (F := L.F) (E := L.env)
    (s := { L.called D s with seg := st })
    (hO.kept (hF.aligned happ) (hF.cut happ))
  refine ⟨os ++ os', ?_, fun k hk => ?_⟩
  · rw [hO.run, hos', hos, hout, append_assoc]
  · have hcol := hrec k (hO.ncols ▸ hk)
    have hent : List.Forall₂ (fun c d => (d.col = c.col ∧ inRange L.F.lo L.F.hi d.col d.row = true) ∧
        D.words d = some (patchedWords D c d)) (windowCalls L.F cs) (rowCalls L.F L.calls) := by
      have hcols := noted_cols hO.table hO.noted (aotApply_some hO.apply).1
      have hwords := hF.entries happ
      rw [forall₂_iff_get] at hcols hwords ⊢
      exact ⟨hcols.1, fun i h1 h2 => ⟨hcols.2 i h1 h2, hwords.2 i h1 h2⟩⟩
    have hcalls := callsEffects_patched (k := k) hent
    rw [callsEffects_rowCalls] at hcalls
    have hroute : wordEffects
      (chunkWrites (if (L.called D s).routeNow then putWords [] (tableRoute L.F p k) else [])) =
        L.routeEffects D s k := by
      unfold Launch.routeEffects
      by_cases hr : L.Routes D s
      · have hr' : (L.called D s).routeNow = true := hnow.trans hr
        rw [if_pos hr, if_pos hr', wordEffects_route (routePart_self _), tableRoute_encoded (hF.encoded hr)]
      · have hr' : ¬(L.called D s).routeNow = true := fun h => hr (hnow.symm.trans h)
        rw [if_neg hr, if_neg hr']
        rfl
    have hvalid : ∀ c ∈ (if (L.called D s).routeNow then putWords [] (tableRoute L.F p k) else []),
        c.Valid := by
      split
      · exact putWords_nil_valid _
      · exact fun c hc => absurd hc not_mem_nil
    rw [sealLast_writes, wordEffects_putWords hvalid, hroute, hO.noted.recs, ← hcalls] at hcol
    have hall := received_append (hquiet k) hcol
    rw [nil_append] at hall
    exact hall

theorem Launch.Applies.opened (ho : Opens (L.table D) L.F s (L.opened D s)) (happ : L.Applies D s) :
    Opened L.F (L.table D) (L.opened D s) := by
  obtain ⟨a, haot, -⟩ := happ
  cases hact : (L.opened D s).active with
  | true => exact ho.opened_of_active hact
  | false =>
    obtain ⟨x, y, z, u, v, hframe⟩ := calls_frame D L.env L.calls (L.opened D s)
    rw [Launch.called, hframe] at haot
    cases (ho.closed_of_inactive hact).1.symm.trans haot

/-- **A harmless table changes nothing**: every column receives the route, if this window
sets it up, and then the writes of the calls made. -/
theorem Launch.sends (hs : Idle s)
    (h : ∀ p cs, L.built = some (p, cs) → (buildWindow D L.F p cs).isSome = true →
    L.Faithful D s p cs) : L.Sends D s := by
  have ho : Opens (L.table D) L.F s (L.opened D s) := begin_opens hs
  by_cases happ : L.Applies D s
  · -- the table's words are sent
    have hopened := happ.opened ho
    cases ho with
    | closed _ _ _ out | plain _ _ _ out | seeded _ _ _ _ _ _ out | captured _ _ _ _ _ out =>
      exact L.sends_applied hopened out happ h
    | direct opened route p fails =>
      -- the tool could encode the route, so the runtime can
      obtain ⟨p', cs, a, st, hbuilt, hO⟩ := L.applied opened happ
      obtain ⟨r, hr⟩ := isSome_iff_exists.1 ((h p' cs hbuilt (by rw [hO.table]; rfl)).encoded route)
      have hfit := (appendRecords_hold L.F.ret hr (resetSegs_hold p')).1
      obtain ⟨r', hr'⟩ := exists_appendRecords L.F.ret (resetSegs_hold p)
        (appendRecords_range L.F.ret hr) hfit
      rw [hr'] at fails
      cases fails
  · cases hact : (L.opened D s).active with
    | false =>
      obtain ⟨haot, hroute, hout⟩ := ho.closed_of_inactive hact
      refine ⟨L.calls.map .direct, ?_, fun k _ => ?_⟩
      · rw [Launch.run, Launch.called, run_closed hact haot, hout]
      · have hno : ¬L.Routes D s := by
          unfold Launch.Routes
          rw [hroute]
          exact Bool.false_ne_true
        rw [received_direct, Launch.expected, if_neg hno]
        rfl
    | true =>
      obtain ⟨hopened, htracks⟩ := L.opened_tracks ho hact fun p cs a hbuilt hb hr => by
        have hF := h p cs hbuilt (by rw [hb]; rfl)
        exact ⟨hF.encoded hr, hF.seeds hr happ⟩
      obtain ⟨os, hout, hacc⟩ := L.executed tracks_closed hopened htracks (fun c _ => trivial) happ
      refine ⟨os, hout, fun k hk => ?_⟩
      obtain ⟨done, hdone, hX⟩ := hacc k hk
      rw [hdone]
      exact congrArg some (hX.trans (append_nil _)).symm

end Sends

/-- **What a window sends is what it sends with no table**: after any history of windows,
if the table is harmless. -/
theorem window_sends (D : Driver) (q : ℕ → ℕ → ℕ) (hist : List Launch) (L : Launch)
    (h : ∀ p cs, L.built = some (p, cs) → (buildWindow D L.F p cs).isSome = true →
      L.Faithful D (after D q hist) p cs) :
    L.Sends D (after D q hist) ∧ L.plain.Sends D (after D q hist) := by
  refine ⟨L.sends (after_idle D q hist) h, L.plain.sends (after_idle D q hist) fun p cs hbuilt => ?_⟩
  cases hbuilt

/-- A window of `oneColumn` on a device where everything succeeds, with a table for the
calls `cs`. -/
def oneLaunch (cs calls : List Call) : Launch :=
  ⟨oneColumn, ⟨true, true, true, false, none⟩, some (fun _ _ => 0, cs), calls⟩

abbrev channelDriver : Driver := constDriver [(0x1D214, 5)]

section Channel

variable {q : ℕ → ℕ → ℕ} {k : ℕ}

theorem channel_words (k : ℕ) :
    tableWords channelDriver oneColumn [channelCall] k = if 0 = k then [(0x1D214, 5)] else [] := append_nil _

theorem channel_seeds (hk : k < oneColumn.ncols) :
    SeedKept (tableRoute oneColumn (fun _ _ => 0) k)
      (tableWords channelDriver oneColumn [channelCall] k) := by
  obtain rfl := Nat.lt_one_iff.1 hk
  rw [oneColumn_route]
  exact fun c _ _ => rfl

theorem channel_aligned : ∀ c ∈ windowCalls oneColumn [channelCall], BlockAligned channelDriver c := by
  intro c hc hbd
  rw [mem_singleton.1 hc] at hbd
  cases hbd

theorem channel_cut :
    ¬Misread k (tableRoute oneColumn q k) (tableWords channelDriver oneColumn [channelCall] k) := by
  rw [channel_words]
  rintro ⟨_, _, _, _, _, -, hW, -⟩
  split at hW <;> cases hW

end Channel

/-- The first window of a program whose one call writes one register and is in the table. -/
theorem window_sends_channel :
    (oneLaunch [channelCall] [channelCall]).Sends (constDriver [(0x1D214, 5)])
      (after (constDriver [(0x1D214, 5)]) (fun _ _ => 0) []) ∧
    (oneLaunch [channelCall] [channelCall]).plain.Sends (constDriver [(0x1D214, 5)])
      (after (constDriver [(0x1D214, 5)]) (fun _ _ => 0) []) := by
  refine window_sends _ _ [] _ fun p cs hbuilt _ => ?_
  cases hbuilt
  refine ⟨fun _ => ?_, fun _ _ k hk => channel_seeds hk, fun _ => channel_aligned, fun _ => .cons rfl .nil,
    fun _ _ k _ => channel_cut⟩
  show (appendRecords 1 1 [(1, 0x100, 1)] (resetSegs fun _ _ => 0)).isSome = true
  decide +kernel

/-- A driver for the start queue: repeat counts from 1 to 256. -/
def startDriver : Driver :=
  ⟨fun c => if 1 ≤ c.rep ∧ c.rep ≤ 256 then some [(0x1D214, c.bd + 65536 * (c.rep.toNat - 1))] else none,
    fun _ _ _ => none⟩

/-- Start buffer descriptor 3 on channel 0 of the column, `rep` times. -/
def startCall (rep : ℤ) : Call := ⟨.start, 1, 0, 0, 3, 0, rep, 0, []⟩

/-- The program starts the queue 257 times where the table has once. The low byte of the
two counts agrees, so the call is taken for the table's: the column starts the queue once,
where without a table the driver rejects the call. -/
theorem not_sends_repeat :
    ¬(oneLaunch [startCall 1] [startCall 257]).Sends startDriver (after startDriver (fun _ _ => 0) []) := by
  rintro ⟨os, hout, hrec⟩
  have hos : os = ((oneLaunch [startCall 1] [startCall 257]).run startDriver
    (powerOn fun _ _ => 0)).out := hout.symm
  have hcol := hrec 0 (by decide)
  rw [hos] at hcol
  revert hcol
  show received startDriver oneColumn 0 _ ≠ _
  decide +kernel

end AieHlc.Shim
