import AieHlc.Elf.Body

/-!
# Warm reloads

Model of `rt_elf_warm_build` (`aie_runtime.c`): from the body of a kernel image the
accesses to program memory are dropped, by their start address only; the last access is
always kept. Indices are 32-bit.

* `rtElfWarmBuild`: the construction of the warm body.
* `warmKeep`: the accesses it keeps, as a list.
* `warmLoop_readsFrom`, `warmLoop_spec`: a warm body is built from a body that reads back,
  and is the accesses kept.
* `groups`: the words of an image in the groups that become one access each.
* `StraddlesSettled`: the words of a group that lie on the other side of a border of program
  memory than its start are also left by the groups that are kept.
* `warm_refines_iff`: **when a warm reload is as good as a full one.**
-/

namespace AieHlc.Elf

open Option List AieHlc.Word AieHlc.Packet AieHlc.Memory

section Model

variable (lo hi words : ℕ) (body : ℕ → ℕ)

/-- The loop of `rt_elf_warm_build` from index `i` on; ends with the index reached. -/
def warmLoop : ℕ → ℕ → Out → Option (ℕ × Out)
  | 0, _, _ => none
  | fuel + 1, i, o =>
    if u32 (i + 2) < words then
      let ctrl := body (u32 (i + 1))
      let len := 2 + hdrBeats ctrl
      if u32 (i + len) > words then some (i, o)
      else
        let addr := hdrAddr ctrl
        let o' : Out := if u32 (i + len) = words ∨ addr < lo ∨ addr ≥ hi then
          ⟨u32 (o.idx + len), storeWords o.p o.idx ((range len).map fun j => body (i + j))⟩ else o
        warmLoop fuel (u32 (i + len)) o'
    else some (i, o)

end Model

/-- `rt_elf_warm_build` on a body, into a fresh buffer: the warm body, if the body walks
cleanly. -/
def rtElfWarmBuild (d : CpeDev) (b : Body) (buf : ℕ → ℕ) (fuel : ℕ) : Option Out :=
  (warmLoop d.progMemHostOff (u32 (d.progMemHostOff + d.progMemSize)) b.words b.pkt fuel 0
    ⟨0, buf⟩).bind fun r =>
    if r.1 ≠ b.words then none else some r.2

/-- The accesses a warm body keeps: the last one, and those that start outside `[lo, hi)`. -/
def warmKeep (lo hi : ℕ) : List Access → List Access
  | [] => []
  | [a] => [a]
  | a :: b :: rest =>
    if hdrAddr a.ctrl < lo ∨ hdrAddr a.ctrl ≥ hi then a :: warmKeep lo hi (b :: rest)
      else warmKeep lo hi (b :: rest)

/-! ### The loop on a body that reads back -/

section Loop

variable {lo hi words : ℕ} {body : ℕ → ℕ}

theorem map_range_slice {p : ℕ → ℕ} {n : ℕ} {pre mid post : List ℕ}
    (h : (range n).map p = pre ++ (mid ++ post)) :
    (range mid.length).map (fun j => p (pre.length + j)) = mid := by
  have hlen := congrArg length h
  rw [length_map, length_range, length_append, length_append] at hlen
  refine ext_getElem (by rw [length_map, length_range]) fun j hj hj' => ?_
  have hget : ((range n).map p)[pre.length + j]? = some mid[j] := by
    rw [h, getElem?_append_right (Nat.le_add_right _ _), Nat.add_sub_cancel_left, getElem?_append_left hj',
      getElem?_eq_getElem hj']
  rw [getElem?_map, getElem?_range (by omega), map_some, some.injEq] at hget
  rw [getElem_map, getElem_range]
  exact hget

theorem flatMap_words_eq_nil {accs : List Access} (h : (accs.flatMap Access.words).length = 0) :
    accs = [] := by
  cases accs with
  | nil => rfl
  | cons a accs =>
    rw [flatMap_cons, length_append, Access.words, length_cons] at h
    omega

theorem warmKeep_cons {a : Access} {accs : List Access} : warmKeep lo hi (a :: accs) =
    if accs = [] ∨ hdrAddr a.ctrl < lo ∨ hdrAddr a.ctrl ≥ hi then a :: warmKeep lo hi accs
    else warmKeep lo hi accs := by
  cases accs with
  | nil => rw [if_pos (.inl rfl)]; rfl
  | cons b rest =>
    rw [warmKeep]
    by_cases hkeep : hdrAddr a.ctrl < lo ∨ hdrAddr a.ctrl ≥ hi
    · rw [if_pos hkeep, if_pos (.inr hkeep)]
    · rw [if_neg hkeep, if_neg]
      rintro (hnil | hk)
      · exact cons_ne_nil _ _ hnil
      · exact hkeep hk

/-- **The loop on a body that reads back** from index `pre.length` on copies the accesses
that are kept. -/
theorem warmLoop_spec (hwords : words < 2 ^ 32 - 2) :
    ∀ (accs : List Access) (pre : List ℕ) (fuel : ℕ) (o : Out)
    (r : ℕ × Out), (∀ a ∈ accs, a.WellFormed) → (range words).map body = pre ++ accs.flatMap Access.words →
    o.idx ≤ pre.length → warmLoop lo hi words body fuel pre.length o = some r →
    r.1 = words ∧ r.2.words = o.words ++ (warmKeep lo hi accs).flatMap Access.words := by
  intro accs
  induction accs with
  | nil =>
    intro pre fuel o r _ hbuf _ hrun
    have hlen := congrArg length hbuf
    rw [length_map, length_range, flatMap_nil, append_nil] at hlen
    cases fuel with
    | zero => exact nomatch hrun
    | succ fuel =>
      have hstop : ¬u32 (pre.length + 2) < words := by
        rw [u32_eq (by omega)]
        omega
      rw [warmLoop, if_neg hstop] at hrun
      obtain rfl := some.inj hrun
      exact ⟨hlen.symm, by rw [warmKeep, flatMap_nil, append_nil]⟩
  | cons a accs ih =>
    intro pre fuel o r hwf hbuf ho hrun
    rw [flatMap_cons] at hbuf
    have hlen := congrArg length hbuf
    have halen : a.words.length = a.data.length + 2 := by rw [Access.words, length_cons, length_cons]
    rw [length_map, length_range, length_append, length_append, halen] at hlen
    have hbeats : a.data.length = hdrBeats a.ctrl := hwf a mem_cons_self
    have hpos : 1 ≤ hdrBeats a.ctrl := by rw [hdrBeats_eq]; omega
    cases fuel with
    | zero => exact nomatch hrun
    | succ fuel =>
      have hctrl : body (u32 (pre.length + 1)) = a.ctrl := by
        have h2 := hbuf
        rw [Access.words, cons_append, cons_append, ← singleton_append, ← append_assoc] at h2
        rw [u32_eq (by omega)]
        exact eq_of_map_range h2 (by rw [length_append, length_singleton])
      have hgo : u32 (pre.length + 2) < words := by
        rw [u32_eq (by omega)]
        omega
      have hnext : u32 (pre.length + (2 + hdrBeats a.ctrl)) = (pre ++ a.words).length := by
        rw [u32_eq (by omega), length_append, halen]
        omega
      have hcopy : (range (2 + hdrBeats a.ctrl)).map (fun j => body (pre.length + j)) = a.words := by
        rw [show 2 + hdrBeats a.ctrl = a.words.length by omega]
        exact map_range_slice hbuf
      have hin : ¬(pre ++ a.words).length > words := by
        rw [length_append, halen]
        omega
      have hlast : (pre ++ a.words).length = words ↔ accs = [] := by
        rw [length_append, halen]
        refine ⟨fun h => flatMap_words_eq_nil (by omega), fun h => ?_⟩
        rw [h, flatMap_nil, length_nil] at hlen
        omega
      rw [warmLoop, if_pos hgo, hctrl] at hrun
      dsimp only at hrun
      rw [hnext, if_neg hin, hcopy] at hrun
      rw [← append_assoc] at hbuf
      rw [warmKeep_cons]
      by_cases hkeep : accs = [] ∨ hdrAddr a.ctrl < lo ∨ hdrAddr a.ctrl ≥ hi
      · rw [if_pos hkeep]
        rw [if_pos (hkeep.imp_left hlast.2)] at hrun
        have hidx : u32 (o.idx + (2 + hdrBeats a.ctrl)) = o.idx + a.words.length := by
          rw [u32_eq (by omega)]
          omega
        rw [hidx] at hrun
        obtain ⟨hi', hw'⟩ := ih (pre ++ a.words) fuel _ r (fun b hb => hwf b (mem_cons_of_mem _ hb)) hbuf
          (by rw [length_append]; exact Nat.add_le_add_right ho _) hrun
        refine ⟨hi', ?_⟩
        rw [hw', flatMap_cons, ← append_assoc]
        exact congrArg (· ++ _) (words_copied o.p o.idx a.words)
      · rw [if_neg hkeep]
        rw [if_neg fun h => hkeep (h.imp_left hlast.1)] at hrun
        exact ih (pre ++ a.words) fuel o r (fun b hb => hwf b (mem_cons_of_mem _ hb)) hbuf
          (by rw [length_append]; exact Nat.le_add_right_of_le ho) hrun

/-- The words from `i` on read back as accesses. -/
def ReadsFrom (words : ℕ) (body : ℕ → ℕ) (i : ℕ) : Prop :=
  ∃ accs : List Access, (∀ a ∈ accs, a.WellFormed) ∧
    ((range words).map body).drop i = accs.flatMap Access.words

theorem readsFrom_end : ReadsFrom words body words := by
  refine ⟨[], nofun, ?_⟩
  rw [drop_eq_nil_of_le (by rw [length_map, length_range])]
  rfl

theorem readsFrom_cons {i : ℕ} (hle : i + (2 + hdrBeats (body (i + 1))) ≤ words)
    (h : ReadsFrom words body (i + (2 + hdrBeats (body (i + 1))))) : ReadsFrom words body i := by
  obtain ⟨accs, hwf, hdrop⟩ := h
  have hdata : ((range (hdrBeats (body (i + 1)))).map fun j => body (i + 2 + j)).length =
      hdrBeats (body (i + 1)) := by
    rw [length_map, length_range]
  refine ⟨⟨body i, body (i + 1), (range (hdrBeats (body (i + 1)))).map fun j => body (i + 2 + j)⟩ :: accs,
    forall_mem_cons.2 ⟨hdata, hwf⟩, ?_⟩
  rw [flatMap_cons, ← hdrop]
  refine ext_getElem ?_ fun k hk hk' => ?_
  · simp only [length_drop, length_map, length_range, Access.words, length_append, length_cons]
    omega
  · -- the first two words are the headers, then the data words, then the rest
    rw [length_drop, length_map, length_range] at hk
    rw [getElem_drop, getElem_map, getElem_range]
    rcases k with _ | _ | k
    · rfl
    · rfl
    · simp only [Access.words, cons_append, getElem_cons_succ]
      by_cases hlt : k < hdrBeats (body (i + 1))
      · rw [getElem_append_left (by rw [hdata]; exact hlt), getElem_map, getElem_range]
        congr 1
        omega
      · rw [getElem_append_right (by rw [hdata]; omega), getElem_drop, getElem_map, getElem_range]
        congr 1
        rw [hdata]
        omega

/-- A run that ends at the end of the body reads the accesses from `i` on, or has wrapped
around to the start. -/
theorem warmLoop_reads (hwords : words < 2 ^ 32 - 2) : ∀ (fuel i : ℕ) (o : Out) (r : ℕ × Out), i ≤ words →
    warmLoop lo hi words body fuel i o = some r → r.1 = words →
    ReadsFrom words body i ∨ ∃ fuel' < fuel, ∃ o', warmLoop lo hi words body fuel' 0 o' = some r := by
  intro fuel
  induction fuel with
  | zero => exact fun i o r _ => nofun
  | succ fuel ih =>
    intro i o r hi' hrun hend
    have h2 : u32 (i + 2) = i + 2 := u32_eq (by omega)
    have h1 : u32 (i + 1) = i + 1 := u32_eq (by omega)
    rw [warmLoop, h2, h1] at hrun
    by_cases hgo : i + 2 < words
    · rw [if_pos hgo] at hrun
      dsimp only at hrun
      have hbeats : hdrBeats (body (i + 1)) ≤ 4 := by rw [hdrBeats_eq]; omega
      by_cases hbreak : u32 (i + (2 + hdrBeats (body (i + 1)))) > words
      · rw [if_pos hbreak] at hrun
        obtain rfl := some.inj hrun
        dsimp only at hend
        omega
      · rw [if_neg hbreak] at hrun
        by_cases hwrap : i + (2 + hdrBeats (body (i + 1))) < 2 ^ 32
        · rw [u32_eq hwrap] at hrun hbreak
          rcases ih _ _ r (by omega) hrun hend with hreads | ⟨fuel', hlt, o', hrun'⟩
          · exact .inl (readsFrom_cons (by omega) hreads)
          · exact .inr ⟨fuel', by omega, o', hrun'⟩
        · have hzero : u32 (i + (2 + hdrBeats (body (i + 1)))) = 0 := by unfold u32; omega
          rw [hzero] at hrun
          exact .inr ⟨fuel, Nat.lt_succ_self _, _, hrun⟩
    · rw [if_neg hgo] at hrun
      obtain rfl := some.inj hrun
      dsimp only at hend
      subst hend
      exact .inl readsFrom_end

/-- A body of `2^32 - 2` words or more never ends the loop at its end. -/
theorem warmLoop_never (hlarge : 2 ^ 32 - 2 ≤ words) (hwords : words < 2 ^ 32) :
    ∀ (fuel i : ℕ) (o : Out) (r : ℕ × Out),
    warmLoop lo hi words body fuel i o = some r → r.1 ≠ words := by
  intro fuel
  induction fuel with
  | zero => exact fun i o r => nofun
  | succ fuel ih =>
    intro i o r hrun
    rw [warmLoop] at hrun
    by_cases hgo : u32 (i + 2) < words
    · rw [if_pos hgo] at hrun
      dsimp only at hrun
      have hbeats : hdrBeats (body (u32 (i + 1))) ≤ 4 := by rw [hdrBeats_eq]; omega
      by_cases hbreak : u32 (i + (2 + hdrBeats (body (u32 (i + 1))))) > words
      · rw [if_pos hbreak] at hrun
        obtain rfl := some.inj hrun
        rintro rfl
        generalize hdrBeats (body (u32 (i + 1))) = n at hbreak hbeats
        unfold u32 at hbreak
        omega
      · rw [if_neg hbreak] at hrun
        exact ih _ _ r hrun
    · rw [if_neg hgo] at hrun
      obtain rfl := some.inj hrun
      rintro rfl
      unfold u32 at hgo
      omega

/-- **A body on which the loop ends at its end reads back.** -/
theorem warmLoop_readsFrom (hwords : words < 2 ^ 32 - 2) : ∀ (fuel : ℕ) (o : Out) (r : ℕ × Out),
    warmLoop lo hi words body fuel 0 o = some r → r.1 = words → ReadsFrom words body 0 := by
  intro fuel
  induction fuel using Nat.strong_induction_on with
  | _ fuel ih =>
    intro o r hrun hend
    rcases warmLoop_reads hwords fuel 0 o r (Nat.zero_le _) hrun hend with h | ⟨fuel', hlt, o', hrun'⟩
    · exact h
    · exact ih fuel' hlt o' r hrun' hend

end Loop

/-! ### The warm body -/

section Warm

variable {d : CpeDev} {b : Body} {buf : ℕ → ℕ} {fuel : ℕ} {w : Out}

/-- The accesses a warm body of `d` keeps. -/
def keptAccs (d : CpeDev) (accs : List Access) : List Access :=
  warmKeep d.progMemHostOff (u32 (d.progMemHostOff + d.progMemSize)) accs

theorem mem_warmKeep {lo hi : ℕ} {a : Access} :
    ∀ {accs : List Access}, a ∈ warmKeep lo hi accs → a ∈ accs := by
  intro accs
  induction accs with
  | nil => exact fun h => h
  | cons c accs ih =>
    rw [warmKeep_cons]
    split
    · intro h
      rcases mem_cons.1 h with rfl | h
      · exact mem_cons_self
      · exact mem_cons_of_mem _ (ih h)
    · exact fun h => mem_cons_of_mem _ (ih h)

/-- **A warm body** that is built reads back as the accesses kept of the body. -/
theorem warm_spec (hwords : b.words < 2 ^ 32) (h : rtElfWarmBuild d b buf fuel = some w) :
    ∃ accs, walk ((range b.words).map b.pkt) = some accs ∧ walk w.words = some (keptAccs d accs) := by
  obtain ⟨r, hrun, hend⟩ := bind_eq_some_iff.1 h
  by_cases hne : r.1 ≠ b.words
  · rw [if_pos hne] at hend
    exact nomatch hend
  rw [if_neg hne] at hend
  obtain rfl := some.inj hend
  have hend' : r.1 = b.words := not_not.1 hne
  have hsmall : b.words < 2 ^ 32 - 2 := by
    by_contra hlarge
    exact warmLoop_never (Nat.le_of_not_lt hlarge) hwords _ _ _ _ hrun hend'
  obtain ⟨accs, hwf, hbuf⟩ := warmLoop_readsFrom hsmall _ _ _ hrun hend'
  rw [drop_zero] at hbuf
  obtain ⟨_, hkept⟩ := warmLoop_spec hsmall accs [] fuel _ r hwf hbuf (Nat.zero_le _) hrun
  refine ⟨accs, ?_, ?_⟩
  · rw [hbuf]
    exact walk_words hwf
  · rw [hkept]
    exact walk_words fun a ha => hwf a (mem_warmKeep ha)

def InProgMem (d : CpeDev) (a : ℕ) : Prop := d.progMemHostOff ≤ a ∧ a < d.progMemHostOff + d.progMemSize

instance (d : CpeDev) (a : ℕ) : Decidable (InProgMem d a) := inferInstanceAs (Decidable (_ ∧ _))

/-- A warm reload is as good as a full one: both bodies read back, the warm one ends with
its only write with return, and from every memory whose program memory is what the full
body leaves there both lead to the same memory. -/
def WarmRefines (d : CpeDev) (b : Body) (w : Out) : Prop :=
  ∃ full warm, walk ((range b.words).map b.pkt) = some full ∧ walk w.words = some warm ∧ OneAck warm ∧
    ∀ m : ℕ → ℕ, (∀ a, InProgMem d a → m a = run (full.flatMap Access.writes) m a) →
      run (warm.flatMap Access.writes) m = run (full.flatMap Access.writes) m

def accessesOf (b : Body) : List Access := (walk ((range b.words).map b.pkt)).getD []

/-- At every address the last write that is kept is the last write, or nothing is kept of
the writes to an address of program memory. -/
def Settled (d : CpeDev) (accs : List Access) : Prop :=
  ∀ a, lastTo a ((keptAccs d accs).flatMap Access.writes) = lastTo a (accs.flatMap Access.writes) ∨
    InProgMem d a ∧ lastTo a ((keptAccs d accs).flatMap Access.writes) = none

theorem warmRefines_iff (hwords : b.words < 2 ^ 32) (h : rtElfWarmBuild d b buf fuel = some w) :
    WarmRefines d b w ↔ OneAck (keptAccs d (accessesOf b)) ∧ Settled d (accessesOf b) := by
  obtain ⟨accs, hfull, hwarm⟩ := warm_spec hwords h
  have haccs : accessesOf b = accs := by rw [accessesOf, hfull, getD_some]
  have hsub : ∀ x ∈ (keptAccs d accs).flatMap Access.writes, x ∈ accs.flatMap Access.writes := by
    intro x hx
    obtain ⟨a, ha, hx⟩ := mem_flatMap.1 hx
    exact mem_flatMap.2 ⟨a, mem_warmKeep ha, hx⟩
  rw [haccs, Settled, ← run_eq_iff hsub]
  constructor
  · rintro ⟨full, warm, hfull', hwarm', hone, hrun⟩
    obtain rfl := some.inj (hfull.symm.trans hfull')
    obtain rfl := some.inj (hwarm.symm.trans hwarm')
    exact ⟨hone, hrun⟩
  · rintro ⟨hone, hrun⟩
    exact ⟨accs, _, hfull, hwarm, hone, hrun⟩

theorem warmKeep_concat {lo hi : ℕ} (a : Access) (accs : List Access) : warmKeep lo hi (accs ++ [a]) =
    accs.filter (fun c => hdrAddr c.ctrl < lo ∨ hdrAddr c.ctrl ≥ hi) ++ [a] := by
  induction accs with
  | nil => rfl
  | cons c accs ih =>
    have hne : ¬accs ++ [a] = [] := by simp
    rw [cons_append, warmKeep_cons, ih, filter_cons]
    by_cases hkeep : hdrAddr c.ctrl < lo ∨ hdrAddr c.ctrl ≥ hi
    · rw [if_pos (.inr hkeep), if_pos (decide_eq_true hkeep), cons_append]
    · rw [if_neg fun h => h.elim hne hkeep, if_neg (by simpa using hkeep)]

theorem keptAccs_oneAck {row : ℤ} {elf : Image} {sid : ℕ} {wantReset : Bool} :
    OneAck (keptAccs d (bodyAccs d row elf (cpeStreamHdr sid) wantReset ++
      [ackAcc (cpeStreamHdr sid) (lastWord d row elf)])) := by
  rw [keptAccs, warmKeep_concat]
  exact ⟨_, _, rfl, ackAcc_fields.2.2, rfl, fun a ha => (bodyAccs_fields (mem_filter.1 ha).1).2⟩

end Warm

section Main

variable {cap : ℕ} {d : CpeDev} {col row : ℤ} {elf : Image} {sid : ℕ} {pkt buf : ℕ → ℕ}
    {fuel fuel' : ℕ} {b : Body}
  {w : Out}

theorem body_words_lt (hcap : cap < 2 ^ 32) {wantReset : Bool}
    (hrun : rtCpeEncodeBody cap d col row elf sid wantReset pkt fuel = some b) : b.words < 2 ^ 32 := by
  obtain ⟨s, hs, _, _, hfin⟩ := encode_spec hcap hrun
  exact lt_of_le_of_lt (finish_spec hcap hs hfin).2.1 hcap

theorem accessesOf_body (hcap : cap < 2 ^ 32) {wantReset : Bool}
    (hrun : rtCpeEncodeBody cap d col row elf sid wantReset pkt fuel = some b)
    (hfit : bodyLen d row elf wantReset < 2 ^ 32) : accessesOf b = bodyAccs d row elf
      (cpeStreamHdr sid) wantReset ++
      [ackAcc (cpeStreamHdr sid) (lastWord d row elf)] := by
  rw [accessesOf, walk_body hcap hrun hfit, getD_some]

/-! ### The groups of words of an image -/

/-- The words of an image with the reset sequence, in the groups that become one access each,
with the start address of each group: every reset write, and the segments four words at a
time. -/
def groups (d : CpeDev) (row : ℤ) (elf : Image) : List (ℕ × List (ℕ × ℕ)) :=
  ((resetWrites d).map fun w => (w.1 % 2 ^ 20, [(w.1 % 2 ^ 20, w.2)])) ++
    (loaded d row elf.phdrs).flatMap fun s => (range (chunkCount (segCount s.1))).map fun c =>
      ((s.2 + 16 * c) % 2 ^ 20, (range (min 4 (segCount s.1 - 4 * c))).map fun j =>
        ((s.2 + 4 * (4 * c + j)) % 2 ^ 20, segWord elf.byte s.1 (4 * c + j)))

/-- A group with this start address is left out of a warm body. -/
def Dropped (d : CpeDev) (start : ℕ) : Prop :=
  ¬(start < d.progMemHostOff ∨ start ≥ u32 (d.progMemHostOff + d.progMemSize))

instance (d : CpeDev) (start : ℕ) : Decidable (Dropped d start) := inferInstanceAs (Decidable (¬_))

/-- The words of the groups, and the last word of the image once more. -/
def groupWords (d : CpeDev) (row : ℤ) (elf : Image) (gs : List (ℕ × List (ℕ × ℕ))) : List (ℕ × ℕ) :=
  gs.flatMap Prod.snd ++ [((lastWord d row elf).1 % 2 ^ 20, (lastWord d row elf).2)]

/-- A word of a group that lies on the other side of a border of program memory than the
start of the group is also what the groups outside program memory leave at its address. -/
def StraddlesSettled (d : CpeDev) (row : ℤ) (elf : Image) : Prop :=
  ∀ g ∈ groups d row elf, ∀ x ∈ g.2, (Dropped d g.1 ↔ ¬InProgMem d x.1) →
    lastTo x.1 (groupWords d row elf ((groups d row elf).filter fun g => ¬Dropped d g.1)) =
      lastTo x.1 (groupWords d row elf (groups d row elf))

theorem bodyAccs_groups (h : ℕ) : (bodyAccs d row elf h true).map (fun a => (hdrAddr a.ctrl, a.writes)) =
    groups d row elf := by
  rw [bodyAccs, if_pos rfl, map_append, List.map_map, map_flatMap, groups]
  congr 1
  · refine map_congr_left fun w _ => Prod.ext ?_ (putAcc_fields w).2.1
    exact (@chunkAccess_fields h w.1 (some fun _ => w.2) 1 0 (by decide)).1
  · refine flatMap_congr fun s _ => ?_
    rw [segAccs, plainAccs, List.map_map]
    refine map_congr_left fun c hc => ?_
    rw [mem_range] at hc
    refine Prod.ext (chunkAccess_fields hc).1 ?_
    exact (chunkAccess_writes hc).trans (by simp only [dataWord_some])

theorem keptAccs_groups (h : ℕ) :
    (keptAccs d (bodyAccs d row elf h true ++ [ackAcc h (lastWord d row elf)])).flatMap Access.writes =
        groupWords d row elf ((groups d row elf).filter fun g => ¬Dropped d g.1) ∧
      (bodyAccs d row elf h true ++ [ackAcc h (lastWord d row elf)]).flatMap Access.writes =
        groupWords d row elf (groups d row elf) := by
  have hwrites : ∀ accs : List Access,
      (accs.map fun a => (hdrAddr a.ctrl, a.writes)).flatMap Prod.snd = accs.flatMap Access.writes :=
    fun accs => flatMap_map ..
  rw [keptAccs, warmKeep_concat, flatMap_append, flatMap_append, flatMap_singleton,
    ackAcc_fields.2.1, groupWords, groupWords,
    ← bodyAccs_groups h, List.filter_map, hwrites, hwrites]
  refine ⟨?_, rfl⟩
  congr 2
  refine filter_congr fun c _ => decide_eq_decide.2 ?_
  exact not_not.symm

theorem lastTo_groups {gs : List (ℕ × List (ℕ × ℕ))} {p : ℕ × List (ℕ × ℕ) → Bool} {x : ℕ}
    (h : ∀ g ∈ gs, ∀ w ∈ g.2, w.1 = x → p g = true) :
    lastTo x ((gs.filter p).flatMap Prod.snd) = lastTo x (gs.flatMap Prod.snd) := by
  induction gs with
  | nil => rfl
  | cons g gs ih =>
    have ih' := ih fun e he => h e (mem_cons_of_mem _ he)
    rw [filter_cons, flatMap_cons, lastTo_append]
    split
    · rw [flatMap_cons, lastTo_append, ih']
    · next hp =>
      have hnone : lastTo x g.2 = none := lastTo_eq_none.2 fun w hw hwx => hp (h g mem_cons_self w hw hwx)
      rw [ih', hnone, or_none]

/-- **The words of an image settle** every address exactly when those of the straddling
groups do. -/
theorem settled_iff {h : ℕ} : Settled d (bodyAccs d row elf h true ++ [ackAcc h (lastWord d row elf)]) ↔
    StraddlesSettled d row elf := by
  obtain ⟨hkept, hall⟩ := @keptAccs_groups d row elf h
  rw [Settled, hkept, hall]
  constructor
  · intro hs g hg x hx hfar
    rcases hs x.1 with heq | ⟨hin, hnone⟩
    · exact heq
    · -- the group is kept, and writes there
      refine absurd rfl (lastTo_eq_none.1 hnone x
        (mem_append_left _ (mem_flatMap.2 ⟨g, mem_filter.2 ⟨hg, ?_⟩, hx⟩)))
      exact decide_eq_true fun hd => hfar.1 hd hin
  · intro hstr x
    by_cases hfar : ∃ g ∈ groups d row elf, ∃ w ∈ g.2, w.1 = x ∧ (Dropped d g.1 ↔ ¬InProgMem d x)
    · obtain ⟨g, hg, w, hw, rfl, hside⟩ := hfar
      exact .inl (hstr g hg w hw hside)
    rw [groupWords, groupWords, lastTo_append, lastTo_append]
    by_cases hx : InProgMem d x
    · -- every group that writes to `x` is dropped
      have hnone : lastTo x (((groups d row elf).filter fun g => ¬Dropped d g.1).flatMap
          Prod.snd) = none := by
        refine lastTo_eq_none.2 fun w hw hwx => hfar ?_
        obtain ⟨g, hg, hw⟩ := mem_flatMap.1 hw
        obtain ⟨hg, hk⟩ := mem_filter.1 hg
        exact ⟨g, hg, w, hw, hwx, iff_of_false (of_decide_eq_true hk) (not_not.2 hx)⟩
      rw [hnone, or_none]
      cases hlast : lastTo x [((lastWord d row elf).1 % 2 ^ 20, (lastWord d row elf).2)] with
      | none => exact .inr ⟨hx, rfl⟩
      | some v => exact .inl rfl
    · -- every group that writes to `x` is kept
      have hsame := @lastTo_groups (groups d row elf) (fun g => ¬Dropped d g.1) x fun g hg w hw hwx =>
        decide_eq_true fun hd => hfar ⟨g, hg, w, hw, hwx, iff_of_true hd hx⟩
      rw [hsame]
      exact .inl rfl

/-- **When a warm reload refines a full one.** For an image with the reset sequence whose
body fits 32 bits, exactly when what its groups leave across a border of program memory is
settled. -/
theorem warm_refines_iff (hcap : cap < 2 ^ 32)
    (hrun : rtCpeEncodeBody cap d col row elf sid true pkt fuel = some b)
    (hwarm : rtElfWarmBuild d b buf fuel' = some w) (hfit : bodyLen d row elf true < 2 ^ 32) :
    WarmRefines d b w ↔ StraddlesSettled d row elf := by
  rw [warmRefines_iff (body_words_lt hcap hrun) hwarm, accessesOf_body hcap hrun hfit, settled_iff]
  exact and_iff_right keptAccs_oneAck

end Main

/-- One word of program memory: the warm body is the reset sequence and the final write. -/
theorem warm_refines_oneWord :
    ∃ b w, rtCpeEncodeBody 12 smallDev 0 0 oneWord 16 true (fun _ => 0) 2 = some b ∧
    rtElfWarmBuild smallDev b (fun _ => 0) 6 = some w ∧ WarmRefines smallDev b w := by
  have hsome : ((rtCpeEncodeBody 12 smallDev 0 0 oneWord 16 true (fun _ => 0) 2).bind fun b =>
      rtElfWarmBuild smallDev b (fun _ => 0) 6).isSome := by decide +kernel
  obtain ⟨w, hw⟩ := isSome_iff_exists.1 hsome
  obtain ⟨b, hb, hw⟩ := bind_eq_some_iff.1 hw
  exact ⟨b, w, hb, hw, (warm_refines_iff (by decide) hb hw (by decide)).2
    (by unfold StraddlesSettled; decide +kernel)⟩

def tightDev : CpeDev := { smallDev with progMemSize := 0x10 }

/-- A segment of three words, of which the first is the last word of program memory. -/
def straddling : Image := ⟨[⟨PT_LOAD, 0, 0xC, 12, by decide⟩], fun i => i, by decide⟩

/-- Its only access is dropped, with a word behind program memory that nothing else writes. -/
theorem not_warm_refines_straddling : ∃ b w,
    rtCpeEncodeBody 14 tightDev 0 0 straddling 16 true (fun _ => 0) 2 = some b ∧
    rtElfWarmBuild tightDev b (fun _ => 0) 6 = some w ∧ ¬WarmRefines tightDev b w := by
  have hsome : ((rtCpeEncodeBody 14 tightDev 0 0 straddling 16 true (fun _ => 0) 2).bind fun b =>
      rtElfWarmBuild tightDev b (fun _ => 0) 6).isSome := by decide +kernel
  obtain ⟨w, hw⟩ := isSome_iff_exists.1 hsome
  obtain ⟨b, hb, hw⟩ := bind_eq_some_iff.1 hw
  refine ⟨b, w, hb, hw, fun h => ?_⟩
  obtain ⟨_, hsettled⟩ := (warmRefines_iff (body_words_lt (by decide) hb) hw).1 h
  rw [accessesOf_body (by decide) hb (by decide)] at hsettled
  exact absurd (hsettled 0x20010) (by decide +kernel)

end AieHlc.Elf
