import AieHlc.Shim.Send

/-!
# One acknowledgement for each segment

`rt_sb_kick` sizes the acknowledgement descriptor by the number of segments it sends, so
each segment must hold exactly one write with return, its last access. Finishing puts it
there. A segment seeded from a table may hold one already: the tool finished the column
without calls, and its route ends in a write with return. A call that follows it leaves
two in the segment.

* `Acked`: every segment of a batch is answered once.
* `tidy`: the segments hold plain writes but for their newest access.
* `Launch.Answered`: the condition on the table.
* `window_acked`: then every batch of the window is answered once for each segment.
-/

namespace AieHlc.Shim

open List AieHlc.Word AieHlc.Packet

/-- The responses the array returns for a segment: its writes with return. -/
def acks (ws : List ℕ) : ℕ := ((walk ws).getD []).countP fun a => hdrOp a.ctrl = 2

/-- Every segment of the batch has one write with return, its last access, and the
responses are as many as the segments. -/
structure Acked (sent : List Sent) : Prop where
  one : ∀ x ∈ sent, x.words ≠ [] → ∃ accs, walk x.words = some accs ∧ OneAck accs
  responses : (sent.map fun x => acks x.words).sum = nseg sent

/-- Every batch the window sends is acknowledged once for each segment. -/
def Launch.Acks (D : Driver) (L : Launch) (s : Sb) : Prop :=
  ∃ os, (L.run D s).out = s.out ++ os ∧ ∀ sent, .batch sent ∈ os → Acked sent

/-- When a table leaves one acknowledgement for each segment. A window that sets up the
route and does not use the table needs the route's part intact, and no call in a column
the table has only the route of. One that uses it needs its address words in place, and
no misread cut. -/
structure Launch.Answered (D : Driver) (L : Launch) (s : Sb) (p : ℕ → ℕ → ℕ) (cs : List Call) : Prop where
  seeds : L.Routes D s → ¬L.Applies D s →
    ∀ k < L.F.ncols, SeedKept (tableRoute L.F p k) (tableWords D L.F cs k)
  silent : L.Routes D s → ¬L.Applies D s → ∀ k < L.F.ncols, tableRoute L.F p k ≠ [] →
    tableWords D L.F cs k = [] →
    ∀ c ∈ rowCalls L.F L.calls, c.col - L.F.lo ≠ k
  aligned : L.Applies D s → ∀ c ∈ windowCalls L.F cs, BlockAligned D c
  cut : L.Applies D s → ¬L.Routes D s →
    ∀ k < L.F.ncols, ¬Misread k (tableRoute L.F p k) (tableWords D L.F cs k)

/-! ### Batches -/

section Batch

variable {E : Env} {s : Sb} {cs : ℕ → List (Chunk ℕ)}

theorem countP_oneAck {accs : List Access} (h : OneAck accs) :
    accs.countP (fun a => hdrOp a.ctrl = 2) = 1 := by
  obtain ⟨init, a, rfl, ha, -, hinit⟩ := h
  have hzero : init.countP (fun a => hdrOp a.ctrl = 2) = 0 := by
    apply countP_eq_zero.2
    intro b hb
    rw [hinit b hb]
    decide
  rw [countP_append, hzero, countP_singleton]
  simp only [ha, decide_true, if_true, zero_add]

theorem acked_of_one {sent : List Sent}
    (h : ∀ x ∈ sent, x.words ≠ [] → ∃ accs, walk x.words = some accs ∧ OneAck accs) : Acked sent := by
  refine ⟨h, ?_⟩
  induction sent with
  | nil => rfl
  | cons x sent ih =>
    have hrest := ih fun y hy => h y (mem_cons_of_mem _ hy)
    rw [map_cons, sum_cons, hrest, nseg, nseg, countP_cons, add_comm]
    congr 1
    by_cases hx : x.words = []
    · rw [hx]
      rfl
    · obtain ⟨accs, hw, hone⟩ := h x mem_cons_self hx
      rw [acks, hw, Option.getD_some, countP_oneAck hone]
      simp [hx]

/-- Finishing segments of plain writes, but for the newest access, leaves one
acknowledgement in each. -/
theorem sent_acked (hs : s.seg.Kept s.ncols cs) (hplain : ∀ k < s.ncols, ∀ c ∈ (cs k).tail, c.op = 0) :
    Acked (s.sent E) := by
  apply acked_of_one
  intro x hx hne
  obtain ⟨k, hk, rfl⟩ := mem_map.1 hx
  have hlt := mem_range.1 hk
  have hwords : s.sentWords E k = wordsOf (rowHdr k) (sealLast (sentChunks E s cs k)) := hs.sentWords hlt
  have hvalid := (hs.padSeg (E := E) hlt).valid
  have hne' : sentChunks E s cs k ≠ [] := by
    intro hnil
    apply hne
    show s.sentWords E k = []
    rw [hwords, hnil]
    rfl
  refine ⟨_, by rw [hwords]; exact walk_wordsOf _ (sealLast_valid hvalid), sealLast_oneAck hne' hvalid ?_⟩
  unfold sentChunks
  split
  · exact fun c hc => absurd hc not_mem_nil
  · exact hplain k hlt

theorem sealLast_tail_plain {cs : List (Chunk ℕ)} (h : Plain cs) : ∀ c ∈ (sealLast cs).tail, c.op = 0 := by
  cases cs with
  | nil => exact fun c hc => absurd hc not_mem_nil
  | cons b cs =>
    intro c hc
    by_cases hlen : 1 < b.data.length
    · rw [sealLast_split hlen] at hc
      rcases mem_cons.1 hc with rfl | hc
      · rfl
      · exact h c (mem_cons_of_mem _ hc)
    · rw [sealLast_single hlen] at hc
      exact h c (mem_cons_of_mem _ hc)

end Batch

/-! ### Executed calls -/

/-- The segments hold plain writes but for the newest access, and only plain writes in the
columns `Q`; the batches sent are acknowledged. -/
def tidy (F : Fabric) (Q : ℕ → Prop) : Account := fun cs os _ =>
  (∀ k < F.ncols, (∀ c ∈ (cs k).tail, c.op = 0) ∧ (Q k → Plain (cs k))) ∧ ∀ b, .batch b ∈ os → Acked b

section Executed

variable {D : Driver} {F : Fabric} {E : Env} {Q : ℕ → Prop} {s : Sb}

theorem kick_acked {cs : ℕ → List (Chunk ℕ)} (hs : s.seg.Kept s.ncols cs)
    (hplain : ∀ k < s.ncols, ∀ c ∈ (cs k).tail, c.op = 0) :
    ∃ os, (rtSbKick E s).out = s.out ++ os ∧ ∀ b, .batch b ∈ os → Acked b := by
  obtain ⟨os, hout, hbatch, -⟩ := kick_received (D := ⟨fun _ => none, fun _ _ _ => none⟩)
    (F := ⟨0, 0, 0, 0, [], le_rfl⟩) (E := E) hs
  refine ⟨os, hout, fun b hb => ?_⟩
  have heq : Output.batch b = .batch (s.sent E) := hbatch _ hb
  cases heq
  exact sent_acked hs hplain

theorem plain_nil : (∀ c ∈ ([] : List (Chunk ℕ)).tail, c.op = 0) ∧ Plain ([] : List (Chunk ℕ)) :=
  ⟨fun _ hc => absurd hc not_mem_nil, fun _ hc => absurd hc not_mem_nil⟩

theorem tidy_closed : (tidy F Q).Closed D F E fun c => inRange F.lo F.hi c.col c.row = true →
    Q (c.col - F.lo) where
  put := by
    rintro cs os X c ws ⟨hplain, hacked⟩ - hQ hin -
    refine ⟨fun k hk => ?_, hacked⟩
    dsimp only
    by_cases hcol : c.col - F.lo = k
    · have hk' : Plain (putWords (cs k) ws) := putWords_plain ((hplain k hk).2 (hcol ▸ hQ hin)) ws
      rw [if_pos hcol]
      exact ⟨fun b hb => hk' b (mem_of_mem_tail hb), fun _ => hk'⟩
    · rw [if_neg hcol]
      exact hplain k hk
  kick := by
    rintro cs os X s ⟨hplain, hacked⟩ hkept hn
    obtain ⟨os', hout, hacked'⟩ := kick_acked (E := E) hkept fun k hk => (hplain k (hn ▸ hk)).1
    exact ⟨os', hout, fun k _ => ⟨plain_nil.1, fun _ => plain_nil.2⟩,
      fun b hb => (mem_append.1 hb).elim (hacked b) (hacked' b)⟩
  direct := by
    rintro cs os X c ⟨hplain, hacked⟩ -
    exact ⟨hplain, fun b hb => (mem_append.1 hb).elim (hacked b) fun hb => nomatch mem_singleton.1 hb⟩

end Executed

/-! ### The window -/

section Window

variable {D : Driver} {L : Launch} {s : Sb}

/-- The columns the window's calls write. -/
def Launch.Called (L : Launch) (k : ℕ) : Prop := ∃ c ∈ rowCalls L.F L.calls, c.col - L.F.lo = k

theorem routePart_nil {P : List (Chunk ℕ)} (h : RoutePart [] P) : P = [] := slots_eq_nil h.length

theorem Launch.opened_tidy (ho : Opens (L.table D) L.F s (L.opened D s)) (hact : (L.opened D s).active = true)
    (hno : ¬L.Applies D s) (h : ∀ p cs, L.built = some (p, cs) → (buildWindow D L.F p cs).isSome = true →
      L.Answered D s p cs) (X : ℕ → List Effect) :
    Opened L.F (L.table D) (L.opened D s) ∧ Accounted L.F (tidy L.F L.Called) s.out (L.opened D s) X := by
  have hempty : ∀ k, (∀ c ∈ ([] : List (Chunk ℕ)).tail, c.op = 0) ∧
      (L.Called k → Plain ([] : List (Chunk ℕ))) :=
    fun k => ⟨plain_nil.1, fun _ => plain_nil.2⟩
  have hnone : ∀ b, Output.batch b ∈ ([] : List Output) → Acked b := fun b hb => absurd hb not_mem_nil
  cases ho with
  | closed idle =>
    rw [idle.inactive] at hact
    exact absurd hact Bool.false_ne_true
  | plain opened route empty out =>
    refine ⟨opened, opened.active, opened.lo, opened.hi, _, [], empty, ?_, fun k _ => hempty k, hnone⟩
    rw [out, append_nil]
  | seeded opened route a table q seeds out =>
    obtain ⟨p, cs, hbuilt, hb⟩ := Launch.table_some table
    have hA := h p cs hbuilt (by rw [hb]; rfl)
    obtain ⟨P, hhold, hP⟩ := seedSegs_hold hb seeds (hA.seeds route hno)
    refine ⟨opened, opened.active, opened.lo, opened.hi, P, [], hhold, ?_, fun k hk => ?_, hnone⟩
    · rw [out, append_nil]
    · obtain ⟨hpart, hfull⟩ := hP k hk
      refine ⟨hpart.plain, fun hcalled => ?_⟩
      by_cases hW : tableWords D L.F cs k = []
      · by_cases hR : tableRoute L.F p k = []
        · rw [hR] at hpart
          rw [routePart_nil hpart]
          exact fun c hc => absurd hc not_mem_nil
        · -- only the route is in the table, so no call comes to this column
          obtain ⟨c, hc, hcol⟩ := hcalled
          exact absurd hcol (hA.silent route hno k hk hR hW c hc)
      · rw [hfull hW]
        exact putWords_nil_plain _
  | captured opened route p pos seg out =>
    have hhold := (appendRecords_hold L.F.ret seg (resetSegs_hold p)).2
    refine ⟨opened, opened.active, opened.lo, opened.hi, _, [], hhold, ?_, fun k _ => ?_, hnone⟩
    · rw [out, append_nil]
    · have hk := putWords_nil_plain (colWrites L.F.lo k L.F.ret)
      exact ⟨fun c hc => hk c (mem_of_mem_tail hc), fun _ => hk⟩
  | direct opened route p fails empty out =>
    refine ⟨opened, opened.active, opened.lo, opened.hi, _, [.route L.F.ret], empty, out,
      fun k _ => hempty k, ?_⟩
    intro b hb
    cases mem_singleton.1 hb

theorem Launch.acks_applied (hopened : Opened L.F (L.table D) (L.opened D s)) {os : List Output}
    (hout : (L.opened D s).out = s.out ++ os) (hos : ∀ b, .batch b ∉ os) (happ : L.Applies D s)
    (h : ∀ p cs, L.built = some (p, cs) → (buildWindow D L.F p cs).isSome = true → L.Answered D s p cs) :
    L.Acks D s := by
  obtain ⟨p, cs, a, st, hbuilt, hO⟩ := L.applied hopened happ
  have hA := h p cs hbuilt (by rw [hO.table]; rfl)
  obtain ⟨os', hos', hbatch, -⟩ := hO.noted.quiet
  have hplain : ∀ k, Plain (putWords
    (if (L.called D s).routeNow then putWords [] (tableRoute L.F p k) else [])
      (patchedColumn D L.F.lo k (windowCalls L.F cs) (L.called D s).recs)) := by
    intro k
    apply putWords_plain
    split
    · exact putWords_nil_plain _
    · exact fun c hc => absurd hc not_mem_nil
  obtain ⟨os'', hos'', hacked⟩ := kick_acked (E := L.env) (s := { L.called D s with seg := st })
    (hO.kept (hA.aligned happ) (hA.cut happ)) fun k _ => sealLast_tail_plain (hplain k)
  refine ⟨os ++ os' ++ os'', ?_, fun b hb => ?_⟩
  · rw [hO.run, hos'', hos', hout]
    simp only [append_assoc]
  · rcases mem_append.1 hb with hb | hb
    · rcases mem_append.1 hb with hb | hb
      · exact absurd hb (hos b)
      · exact absurd hb (hbatch b)
    · exact hacked b hb

end Window

/-- **One acknowledgement for each segment sent**, after any history of windows, if the
table leaves it so. -/
theorem window_acked (D : Driver) (q : ℕ → ℕ → ℕ) (hist : List Launch) (L : Launch)
    (h : ∀ p cs, L.built = some (p, cs) → (buildWindow D L.F p cs).isSome = true →
      L.Answered D (after D q hist) p cs) : L.Acks D (after D q hist) := by
  have hs := after_idle D q hist
  generalize after D q hist = s at h hs
  have ho : Opens (L.table D) L.F s (L.opened D s) := begin_opens hs
  by_cases happ : L.Applies D s
  · obtain ⟨os, hout, hos⟩ := ho.quiet
    exact L.acks_applied (happ.opened ho) hout hos happ h
  · cases hact : (L.opened D s).active with
    | false =>
      obtain ⟨haot, -, hout⟩ := ho.closed_of_inactive hact
      refine ⟨L.calls.map .direct, ?_, fun b hb => ?_⟩
      · rw [Launch.run, Launch.called, run_closed hact haot, hout]
      · obtain ⟨c, -, hc⟩ := mem_map.1 hb
        cases hc
    | true =>
      obtain ⟨hopened, htidy⟩ := L.opened_tidy ho hact happ h fun _ => []
      obtain ⟨os, hout, -, hacked⟩ := L.executed tidy_closed hopened htidy
        (fun c hc hin => ⟨c, mem_filter.2 ⟨hc, hin⟩, rfl⟩) happ
      exact ⟨os, hout, hacked⟩

/-- The first window of a program whose one call is in the table. -/
theorem window_acked_channel :
    (oneLaunch [channelCall] [channelCall]).Acks (constDriver [(0x1D214, 5)])
      (after (constDriver [(0x1D214, 5)]) (fun _ _ => 0) []) := by
  refine window_acked _ _ [] _ fun p cs hbuilt _ => ?_
  cases hbuilt
  refine ⟨fun _ _ k hk => channel_seeds hk, fun _ _ k hk _ hW => ?_, fun _ => channel_aligned,
    fun _ _ k _ => channel_cut⟩
  have hW' : tableWords channelDriver oneColumn [channelCall] k = [] := hW
  rw [channel_words, if_pos (Nat.lt_one_iff.1 hk).symm] at hW'
  cases hW'

def twoColumns : Fabric := ⟨0, 0, 1, 2, [(1, 0x100, 1), (2, 0x100, 1)], by decide⟩

/-- A window of `twoColumns`: the table has a call in the second column, the program makes
it in the first. -/
def movedLaunch : Launch :=
  ⟨twoColumns, ⟨true, true, true, false, none⟩,
    some (fun _ _ => 0, [{ channelCall with col := 2 }]), [channelCall]⟩

/-- The responses and the segments of each batch. -/
def batchCounts (os : List Output) : List (ℕ × ℕ) :=
  os.map fun
    | .batch sent => ((sent.map fun x => acks x.words).sum, nseg sent)
    | _ => (0, 0)

/-- The table has only the route of the first column, so the seeded route ends in a write
with return; the call made there adds another. Two segments return three responses. -/
theorem not_acked_moved : ¬movedLaunch.Acks (constDriver [(0x1D214, 5)])
    (after (constDriver [(0x1D214, 5)]) (fun _ _ => 0) []) := by
  rintro ⟨os, hout, hacked⟩
  have hos : os = (movedLaunch.run (constDriver [(0x1D214, 5)]) (powerOn fun _ _ => 0)).out := hout.symm
  have hcount : batchCounts os = [(3, 2)] := by
    rw [hos]
    decide +kernel
  match os, hcount with
  | [.batch sent], hcount =>
    have hresp := (hacked sent mem_cons_self).responses
    obtain ⟨h1, h2⟩ := Prod.mk.inj (List.cons.inj hcount).1
    rw [h1, h2] at hresp
    cases hresp
  | [.direct c], hcount => cases hcount
  | [.route ws], hcount => cases hcount

end AieHlc.Shim
