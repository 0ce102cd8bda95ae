import AieHlc.Netboot.Bounds

/-!
# Placing and patching stay within their memory

The last step of a placement looks for `_exit` in the symbol tables and patches it. Together with
what `elf_place` does this gives the exact condition for a placement to stay in the image and in app
memory.

* `ExitSearchWithin`, `exact_elfPatchExit`: the symbols and strings that are come to, and the
  address that is patched.
* `Contained`: the condition for the whole of a placement.
* `placement_within_iff`: placements stay within exactly for such images.
-/

namespace AieHlc.Netboot

open AieHlc.Prog

section Patch

variable (m placed : Mem) (img size : ℕ)

def wordsAt (μ : Mem) (a : ℕ) : List ℕ := (List.range 4).map fun i => le μ (a + 4 * i) 4

/-- An address that is patched is one of app memory, with all its bytes. -/
def ExitWithin (a : ℕ) : Prop :=
  ¬(wrap (a + 16) > NB_APP_LIMIT ∨ a % 4 ≠ 0) → wordsAt placed a = exitCode → a + 16 ≤ NB_APP_LIMIT

/-- Whether the address is patched. -/
def patchedAt (a : ℕ) : Bool :=
  if wrap (a + 16) > NB_APP_LIMIT ∨ a % 4 ≠ 0 then false else if wordsAt placed a ≠
    exitCode then false else true

/-- The symbol has a name, and it is `_exit`. -/
def IsExit (sh st : Shdr) (k : ℕ) : Prop :=
  (sym m img sh.offset k).name < st.size ∧
    textIs m img (st.offset + (sym m img sh.offset k).name) exitName = true

instance (sh st : Shdr) (k : ℕ) : Decidable (IsExit m img sh st k) := inferInstanceAs (Decidable (_ ∧ _))

/-- What a symbol makes of the search. -/
def symbolResult (sh st : Shdr) (k : ℕ) : Option Bool :=
  if IsExit m img sh st k then some (patchedAt placed (sym m img sh.offset k).value) else none

/-- The name of a symbol is compared within the image; the value of an `_exit` is read there, and
patched in app memory. -/
def SymbolWithin (sh st : Shdr) (k : ℕ) : Prop :=
  ((sym m img sh.offset k).name < st.size →
      TextWithin m img size (st.offset + (sym m img sh.offset k).name) exitName) ∧
    (IsExit m img sh st k → wrap (sh.offset + sizeofSym * k + 8) + 8 ≤ size ∧
      ExitWithin placed (sym m img sh.offset k).value)

variable {m placed img size} {R : Mem → Prop} (h : Above img size)
variable (hplaced : SameImage m img size placed)

theorem exact_peekWords (a : ℕ) :
    Exact (Access.Within img size) (· = placed) (peekWords a) True (wordsAt placed a) (· = placed) where
  allowed μ _ := by
    change (∀ w ∈ [Access.peek (wrap a) 16], w.Within img size) ↔ _
    rw [List.forall_mem_singleton]
    exact iff_of_true trivial trivial
  val μ hμ _ := by
    rw [hμ]
    rfl
  state μ hμ _ := hμ

include h hplaced in
theorem exact_patchAt (parkAddr : ℕ) {a : ℕ} (ha : a < 2 ^ 64) :
    Exact (Access.Within img size) (· = placed) (patchAt parkAddr a) (ExitWithin placed a)
      (patchedAt placed a)
      (SameImage m img size) := by
  have hR : ∀ μ, μ = placed → SameImage m img size μ := fun μ hμ => hμ ▸ hplaced
  unfold patchAt ExitWithin patchedAt
  by_cases hout : wrap (a + 16) > NB_APP_LIMIT ∨ a % 4 ≠ 0
  · rw [if_pos hout, if_pos hout]
    exact (Exact.pure _ hR).congr (iff_of_true trivial fun hn => absurd hout hn)
  · rw [if_neg hout, if_neg hout]
    by_cases hcode : wordsAt placed a ≠ exitCode
    · rw [if_pos hcode]
      refine Exact.congr ((exact_peekWords a).bind (D := True) fun _ => ?_) ?_
      · rw [if_pos hcode]
        exact Exact.pure _ hR
      · exact iff_of_true ⟨trivial, trivial⟩ fun _ heq => absurd heq hcode
    · rw [if_neg hcode]
      refine Exact.congr ((exact_peekWords a).bind (D := a + 16 ≤ NB_APP_LIMIT) fun _ => ?_) ?_
      · rw [if_neg hcode]
        have hstore : Exact (Access.Within img size) (· = placed) (store a 16 (parkByte parkAddr)) _ () _ :=
          exact_store (m := m) h ha (by decide) hR
        exact hstore.bind_pure fun _ => true
      · rw [true_and]
        exact ⟨fun hfit _ _ => hfit, fun hfit => hfit hout (not_not.1 hcode)⟩

include h hplaced in
theorem exact_patchSymbol (parkAddr : ℕ) (sh st : Shdr) (k : ℕ) :
    Exact (Access.Within img size) (· = placed) (patchSymbol img parkAddr sh.offset st.offset st.size k)
      (wrap (sh.offset + sizeofSym * k) + 4 ≤ size ∧ SymbolWithin m placed img size sh st k)
      (symbolResult m placed img sh st k)
      fun μ => if symbolResult m placed img sh st k = none then μ = placed else SameImage m img size μ := by
  have hR : ∀ μ, μ = placed → SameImage m img size μ := fun μ hμ => hμ ▸ hplaced
  have hvalue : (sym m img sh.offset k).value < 2 ^ 64 := le_lt _ _ 8
  have hload : Exact (Access.Within img size) (· = placed) (stName img sh.offset k) _
      (sym m img sh.offset k).name _ :=
    exact_loadField h hR (by decide)
  refine hload.bind fun _ => ?_
  unfold symbolResult SymbolWithin
  by_cases hname : (sym m img sh.offset k).name ≥ st.size
  · have hno : ¬IsExit m img sh st k := fun he => absurd he.1 (by omega)
    rw [if_pos hname, if_neg hno]
    exact (Exact.pure _ fun _ hμ => by simpa using hμ).congr
      (iff_of_true trivial ⟨fun hlt => by omega, fun he => absurd he hno⟩)
  · rw [if_neg hname]
    have hlt : (sym m img sh.offset k).name < st.size := by omega
    have hcmp : Exact (Access.Within img size) (· = placed) _ _
        (textIs m img (st.offset + (sym m img sh.offset k).name) exitName) _ := exact_strcmp h hR (by decide)
    by_cases heq : textIs m img (st.offset + (sym m img sh.offset k).name) exitName = true
    · have hyes : IsExit m img sh st k := ⟨hlt, heq⟩
      rw [if_pos hyes]
      have hval : Exact (Access.Within img size) (· = placed) (stValue img sh.offset k) _
        (sym m img sh.offset k).value
        _ := exact_loadField h hR (by decide)
      refine Exact.congr (hcmp.bind (D := wrap (sh.offset + sizeofSym * k + 8) + 8 ≤ size ∧
        ExitWithin placed (sym m img sh.offset k).value) fun _ => ?_) ?_
      · rw [if_pos heq]
        refine hval.bind fun _ => ?_
        exact ((exact_patchAt h hplaced parkAddr hvalue).bind_pure some).post fun _ _ hμ => by simpa using hμ
      · simp [hlt, hyes, TextWithin]
    · have hno : ¬IsExit m img sh st k := fun he => heq he.2
      rw [if_neg hno]
      refine Exact.congr (hcmp.bind (D := True) fun _ => ?_) ?_
      · rw [if_neg heq]
        exact Exact.pure _ fun _ hμ => by simpa using hμ
      · simp [hlt, hno, TextWithin]

variable (m placed img size) in
/-- Unless their strings end outside, the names of the symbols up to the first `_exit` lie in the image. -/
def SymtabWithin (sh st : Shdr) : Prop :=
  ¬wrap (st.offset + st.size) > size → ∀ k < sh.size / sizeofSym,
    (∀ j < k, symbolResult m placed img sh st j = none) →
      sh.offset + sizeofSym * k + 4 ≤ size ∧ SymbolWithin m placed img size sh st k

variable (m placed img size) in
/-- What the symbols of a table make of the search. -/
def symtabResult (sh st : Shdr) : Option Bool :=
  if wrap (st.offset + st.size) > size then some false
  else (List.range (sh.size / sizeofSym)).findSome? (symbolResult m placed img sh st)

section Table

variable (hc : TableChecked m img size) (ht : TableWithin m img size)

include h hplaced hc ht in
theorem exact_patchSymtab (parkAddr : ℕ) {sh : Shdr} (hoff : sh.offset < 2 ^ 64) {link : ℕ}
    (hlink : link < (ehdr m img).shnum) :
    Exact (Access.Within img size) (· = placed)
      (patchSymtab img size (ehdr m img) parkAddr sh.offset sh.size link)
      (SymtabWithin m placed img size sh (shdr m img link))
        (symtabResult m placed img size sh (shdr m img link))
      fun μ => if symtabResult m placed img size sh (shdr m img link) = none then μ = placed
        else SameImage m img size μ := by
  have hR : ∀ μ, μ = placed → SameImage m img size μ := fun μ hμ => hμ ▸ hplaced
  unfold patchSymtab SymtabWithin symtabResult
  refine (exact_shOffset h hR hc ht hlink).next ((exact_shSize h hR hc ht hlink).next ?_)
  by_cases hstr : wrap ((shdr m img link).offset + (shdr m img link).size) > size
  · simp only [if_pos hstr]
    exact (Exact.pure _ fun μ hμ => by simpa using hR μ hμ).congr
      (iff_of_true trivial fun hn => absurd hstr hn)
  simp only [if_neg hstr]
  refine (Exact.findSomeM? fun k _ => exact_patchSymbol h hplaced parkAddr sh (shdr m img link) k).congr ?_
  rw [visits_range]
  have htable := fits_table_iff (n := sh.size / sizeofSym) (l := 4)
    (V := fun k => ∀ j < k, symbolResult m placed img sh (shdr m img link) j = none) hoff
    (h.entry_lt (k := sizeofSym) (by decide)) fun i hv j hj => hv j (by omega)
  constructor
  · intro hall _ k hk hv
    exact ⟨htable.1 (fun i hi hvi => (hall i hi hvi).1) k hk hv, (hall k hk hv).2⟩
  · intro hall k hk hv
    exact ⟨htable.2 (fun i hi hvi => (hall hstr i hi hvi).1) k hk hv, (hall hstr k hk hv).2⟩

variable (m placed img size) in
/-- What a section makes of the search. -/
def sectionResult (i : ℕ) : Option Bool :=
  let sh := shdr m img i
  if sh.type ≠ SHT_SYMTAB then none
  else if sh.link ≥ (ehdr m img).shnum then none
  else if wrap (sh.offset + sh.size) > size then some false
  else symtabResult m placed img size sh (shdr m img sh.link)

variable (m placed img size) in
/-- The symbols of a table that is searched lie in the image. -/
def SearchWithin (i : ℕ) : Prop :=
  let sh := shdr m img i
  ¬sh.type ≠ SHT_SYMTAB → ¬sh.link ≥ (ehdr m img).shnum → ¬wrap (sh.offset + sh.size) > size →
    SymtabWithin m placed img size sh (shdr m img sh.link)

include h hplaced hc ht in
theorem exact_patchSection (parkAddr : ℕ) {i : ℕ} (hi : i < (ehdr m img).shnum) :
    Exact (Access.Within img size) (· = placed) (patchSection img size (ehdr m img) parkAddr i)
      (SearchWithin m placed img size i) (sectionResult m placed img size i)
      fun μ => if sectionResult m placed img size i = none then μ = placed else SameImage m img size μ := by
  have hR : ∀ μ, μ = placed → SameImage m img size μ := fun μ hμ => hμ ▸ hplaced
  unfold sectionResult SearchWithin patchSection
  refine (exact_shType h hR hc ht hi).next ?_
  by_cases htype : (shdr m img i).type ≠ SHT_SYMTAB
  · simp only [if_pos htype]
    exact (Exact.pure _ fun _ hμ => by simpa using hμ).congr (iff_of_true trivial fun hn => absurd htype hn)
  simp only [if_neg htype]
  refine (exact_shLink h hR hc ht hi).next ?_
  by_cases hlink : (shdr m img i).link ≥ (ehdr m img).shnum
  · simp only [if_pos hlink]
    exact (Exact.pure _ fun _ hμ => by simpa using hμ).congr (iff_of_true trivial fun _ hn => absurd hlink hn)
  simp only [if_neg hlink]
  refine (exact_shOffset h hR hc ht hi).next ((exact_shSize h hR hc ht hi).next ?_)
  by_cases hends : wrap ((shdr m img i).offset + (shdr m img i).size) > size
  · simp only [if_pos hends]
    exact (Exact.pure _ fun μ hμ => by simpa using hR μ hμ).congr
      (iff_of_true trivial fun _ _ hn => absurd hends hn)
  simp only [if_neg hends]
  have hoff : (shdr m img i).offset < 2 ^ 64 := le_lt _ _ 8
  refine (exact_patchSymtab h hplaced hc ht parkAddr hoff (not_le.1 hlink)).congr ?_
  exact ⟨fun hw _ _ _ => hw, fun hw => hw htype hlink hends⟩

end Table

variable (m placed img size) in
/-- The section table lies in the image, and so do the symbols of the sections up to the one that
ends the search. -/
def ExitSearchWithin : Prop :=
  ¬((ehdr m img).shoff = 0 ∨ wrap ((ehdr m img).shoff + (ehdr m img).shnum * sizeofShdr) > size) →
    ∀ i < (ehdr m img).shnum, (∀ j < i, sectionResult m placed img size j = none) →
      TableWithin m img size ∧ SearchWithin m placed img size i

variable (m placed img size) in
/-- What `elf_patch_exit` returns. -/
def patchResult : Bool :=
  if (ehdr m img).shoff = 0 ∨ wrap ((ehdr m img).shoff + (ehdr m img).shnum * sizeofShdr) > size then false
  else ((List.range (ehdr m img).shnum).findSome? (sectionResult m placed img size)).getD false

include h hplaced in
/-- **`elf_patch_exit`** stays within exactly when the tables it searches lie in the image and what
it patches in app memory. -/
theorem exact_elfPatchExit (parkAddr : ℕ) :
    Exact (Access.Within img size) (· = placed) (elfPatchExit img size parkAddr)
      (sizeofEhdr ≤ size ∧ ExitSearchWithin m placed img size) (patchResult m placed img size)
      (SameImage m img size) := by
  have hR : ∀ μ, μ = placed → SameImage m img size μ := fun μ hμ => hμ ▸ hplaced
  refine (exact_loadEhdr h hR).bind fun _ => ?_
  unfold ExitSearchWithin patchResult
  by_cases hno : (ehdr m img).shoff = 0 ∨ wrap ((ehdr m img).shoff + (ehdr m img).shnum * sizeofShdr) > size
  · rw [if_pos hno, if_pos hno]
    exact (Exact.pure _ hR).congr (iff_of_true trivial fun hn => absurd hno hn)
  rw [if_neg hno, if_neg hno]
  have hc : TableChecked m img size := by
    unfold TableChecked
    omega
  by_cases ht : TableWithin m img size
  · have hloop := Exact.findSomeM? (l := List.range (ehdr m img).shnum) fun i hi =>
      exact_patchSection h hplaced hc ht parkAddr (List.mem_range.1 hi)
    refine Exact.congr ((hloop.bind_pure fun r => r.getD false).post fun _ μ hμ => ?_) ?_
    · split at hμ
      · exact hR μ hμ
      · exact hμ
    rw [visits_range]
    simp only [ht, true_and, hno, not_false_eq_true, forall_const]
  · rcases Nat.eq_zero_or_pos (ehdr m img).shnum with hn | hpos
    · rw [hn]
      exact (Exact.pure _ hR).congr (by simp)
    · refine Exact.congr (C := False) ?_ (iff_of_false id fun hall => ht (hall hno 0 hpos nofun).1)
      obtain ⟨n, hn⟩ := Nat.exists_eq_succ_of_ne_zero hpos.ne'
      rw [hn, List.range_succ_eq_map, List.findSomeM?_cons]
      have hsect : Exact (Access.Within img size) (· = placed)
        (patchSection img size (ehdr m img) parkAddr 0) False
          none (· = placed) := (stuck_shType h hR hc ht hpos).stuck id none
      exact Exact.stuck (hsect.stuck (T := (· = placed)) id none) id _

end Patch

/-! ## The whole of a placement -/

section Whole

variable (m : Mem) (img size : ℕ)

def Access.isStore : Access → Bool
  | .store _ _ => true
  | _ => false

/-- A refused image writes nothing, stores go to app memory, and what is read from the image is part of it. -/
structure PlacedWithin (parkAddr : ℕ) : Prop where
  refused : ∀ e, (elfPlace img size).val m = .error e →
    ∀ w ∈ (placeAndPatch img size parkAddr).log m, w.isStore = false
  stores : ∀ w ∈ (placeAndPatch img size parkAddr).log m, w.isStore = true → w.Within img size
  loads : ∀ w ∈ (placeAndPatch img size parkAddr).log m, w.isStore = false → w.Within img size

/-- The image that is placed: what its headers must say, in sums that do not wrap. -/
structure Contained : Prop where
  phdrs : PhdrsWithin m img size
  segments : headerFault m img size = none → ∀ i < (ehdr m img).phnum, (phdr m img i).type = PT_LOAD →
    (phdr m img i).filesz ≠ 0 → (phdr m img i).memsz = 0 →
      (phdr m img i).offset + (phdr m img i).filesz ≤ size ∧
        (phdr m img i).paddr + (phdr m img i).filesz ≤ NB_APP_LIMIT
  sections : headerFault m img size = none → SectionsWithin m img size
  search : headerFault m img size = none → ExitSearchWithin m ((elfPlace img size).state m) img size

variable {m img size}

/-- What the checks accept stays within, unless it has no memory. -/
theorem segmentWithin_of_checked {i : ℕ} (hok : phdrFault size i (phdr m img i) = none)
    (hmem : (phdr m img i).memsz ≠ 0) : SegmentWithin m img size i := by
  intro hcopied
  have hoff : (phdr m img i).offset < 2 ^ 64 := le_lt _ _ 8
  have hpaddr : (phdr m img i).paddr < 2 ^ 64 := le_lt _ _ 8
  have hmemsz : (phdr m img i).memsz < 2 ^ 64 := le_lt _ _ 8
  have hload : ¬((phdr m img i).type ≠ PT_LOAD ∨ (phdr m img i).memsz = 0) := by
    rintro (ht | hz)
    · exact hcopied (.inl ht)
    · exact hmem hz
  unfold phdrFault at hok
  rw [if_neg hload] at hok
  simp only at hok
  split_ifs at hok with hout hrange
  unfold wrap NB_APP_LIMIT at hout
  unfold wrap at hrange
  unfold NB_APP_LIMIT
  omega

theorem logs_checkHeaders : Logged.Logs (fun w => w.isStore = false) (checkHeaders img size) := by
  have hload : ∀ {α : Type} (a len : ℕ) (read : Mem → ℕ → α),
      Logged.Logs (fun w => w.isStore = false) (load a len read) := by
    intro α a len read μ w hw
    obtain rfl := List.mem_singleton.1 hw
    rfl
  unfold checkHeaders
  split
  · exact Logged.Logs.pure _
  · apply (hload _ _ _).bind
    intro eh
    unfold checkEhdr
    split
    · exact Logged.Logs.pure _
    · exact Logged.Logs.findSomeM? (fun i => (hload _ _ _).bind fun _ => Logged.Logs.pure _) _

/-- **A refused image writes nothing.** -/
theorem refused_no_store {parkAddr : ℕ} {e : PlaceError} (hval : (elfPlace img size).val m = .error e) :
    ∀ w ∈ (placeAndPatch img size parkAddr).log m, w.isStore = false := by
  intro w hw
  have hlog : w ∈ (elfPlace img size).log m := by
    unfold placeAndPatch at hw
    rw [Logged.log_bind, hval] at hw
    simpa using hw
  unfold elfPlace at hval hlog
  rw [Logged.val_bind] at hval
  rw [Logged.log_bind] at hlog
  cases hfault : (checkHeaders img size).val m with
  | some e' =>
    rw [hfault] at hlog
    exact logs_checkHeaders m w (by simpa using hlog)
  | none =>
    -- once the headers are accepted there is a result
    rw [hfault] at hval
    simp [placeBody] at hval

theorem segments_iff (hall : ∀ i < (ehdr m img).phnum, phdrFault size i (phdr m img i) = none) :
    (∀ i < (ehdr m img).phnum, SegmentWithin m img size i) ↔
      ∀ i < (ehdr m img).phnum, (phdr m img i).type = PT_LOAD → (phdr m img i).filesz ≠ 0 →
        (phdr m img i).memsz = 0 → (phdr m img i).offset + (phdr m img i).filesz ≤ size ∧
          (phdr m img i).paddr + (phdr m img i).filesz ≤ NB_APP_LIMIT := by
  constructor
  · intro hseg i hi htype hfile _
    exact hseg i hi fun hskip => hskip.elim (fun hne => hne htype) hfile
  · intro hseg i hi
    by_cases hmem : (phdr m img i).memsz = 0
    · intro hcopied
      have htype : (phdr m img i).type = PT_LOAD := by
        by_contra hne
        exact hcopied (.inl hne)
      exact hseg i hi htype (fun hz => hcopied (.inr hz)) hmem
    · exact segmentWithin_of_checked (hall i hi) hmem

/-- **A placement** stays within exactly for contained images, and leaves them as they are. -/
theorem exact_placeAndPatch (h : Above img size) (parkAddr : ℕ) :
    Exact (Access.Within img size) (· = m) (placeAndPatch img size parkAddr) (Contained m img size)
      ((placeAndPatch img size parkAddr).val m) (SameImage m img size) := by
  have hsame : SameImage m img size m := fun _ _ _ => rfl
  have hplace := exact_elfPlace (m := m) h
  have hbody : Contained m img size → headerFault m img size = none → BodyWithin m img size := fun hcon hok =>
    ⟨(segments_iff (headerFault_eq_none.1 hok).2.2).2 (hcon.segments hok), hcon.sections hok⟩
  have hpatch := fun hC => exact_elfPatchExit h (hplace.state m hsame hC) parkAddr
  refine ⟨?_, fun μ hμ _ => hμ ▸ rfl, ?_⟩
  · rintro μ rfl
    unfold placeAndPatch
    rw [Logged.log_bind, List.forall_mem_append, hplace.allowed μ hsame]
    constructor
    · rintro ⟨⟨hphdrs, hbody⟩, hrest⟩
      rw [hplace.val μ hsame ⟨hphdrs, hbody⟩, placeResult] at hrest
      refine ⟨hphdrs, ?_, fun hok => (hbody hok).sections, ?_⟩
      · intro hok
        exact (segments_iff (headerFault_eq_none.1 hok).2.2).1 (hbody hok).segments
      · intro hok
        rw [hok] at hrest
        exact (((hpatch ⟨hphdrs, hbody⟩).bind_pure _).allowed _ rfl).1 hrest |>.2
    · intro hcon
      refine ⟨⟨hcon.phdrs, hbody hcon⟩, ?_⟩
      rw [hplace.val μ hsame ⟨hcon.phdrs, hbody hcon⟩, placeResult]
      cases hfault : headerFault μ img size with
      | some e => exact fun w hw => by cases hw
      | none =>
        exact (((hpatch ⟨hcon.phdrs, hbody hcon⟩).bind_pure _).allowed _ rfl).2
          ⟨(headerFault_eq_none.1 hfault).1, hcon.search hfault⟩
  · rintro μ rfl hcon
    have hC := And.intro hcon.phdrs (hbody hcon)
    unfold placeAndPatch
    rw [Logged.state_bind, hplace.val μ hsame hC, placeResult]
    cases hfault : headerFault μ img size with
    | some e => exact hplace.state μ hsame hC
    | none =>
      exact ((hpatch hC).bind_pure _).state _ rfl ⟨(headerFault_eq_none.1 hfault).1, hcon.search hfault⟩

/-- **Placements stay within their memory exactly for contained images.** -/
theorem placement_within_iff (h : Above img size) (parkAddr : ℕ) :
    PlacedWithin m img size parkAddr ↔ Contained m img size := by
  rw [← (exact_placeAndPatch h parkAddr).allowed m rfl]
  constructor
  · intro hp w hw
    cases hs : w.isStore with
    | true => exact hp.stores w hw hs
    | false => exact hp.loads w hw hs
  · intro hall
    exact ⟨fun e he => refused_no_store he, fun w hw _ => hall w hw, fun w hw _ => hall w hw⟩

end Whole

/-! ## Two images -/

/-- An image of one segment with four bytes of contents, without sections. -/
def oneSegment (paddr memsz : ℕ) : List UInt8 :=
  ELFMAG ++ [ELFCLASS64, ELFDATA2LSB] ++ bytesLE 10 0 ++ bytesLE 2 ET_EXEC ++
    bytesLE 2 EM_AARCH64 ++ bytesLE 4 1 ++
    bytesLE 8 0 ++ bytesLE 8 sizeofEhdr ++ bytesLE 8 0 ++ bytesLE 4 0 ++ bytesLE 2 sizeofEhdr ++
      bytesLE 2 sizeofPhdr ++
    bytesLE 2 1 ++ bytesLE 6 0 ++
  (bytesLE 4 PT_LOAD ++ bytesLE 4 5 ++ bytesLE 8 (sizeofEhdr + sizeofPhdr) ++ bytesLE 8 paddr ++
    bytesLE 8 paddr ++
    bytesLE 8 4 ++ bytesLE 8 memsz ++ bytesLE 8 4) ++ bytesLE 4 0x14000000

def staged (image : List UInt8) : Mem :=
  fun x => if NB_STAGING_BASE ≤ x then image.getD (x - NB_STAGING_BASE) 0 else 0

theorem above_staging : Above NB_STAGING_BASE 124 := ⟨by decide, by decide⟩

theorem placement_within_oneSegment :
    Access.store 0x1000 4 ∈ (placeAndPatch NB_STAGING_BASE 124 0).log (staged (oneSegment 0x1000 8)) ∧
      PlacedWithin (staged (oneSegment 0x1000 8)) NB_STAGING_BASE 124 0 := by
  have hall : ∀ w ∈ (placeAndPatch NB_STAGING_BASE 124 0).log (staged (oneSegment 0x1000 8)),
      w.Within NB_STAGING_BASE 124 := by decide +kernel
  exact ⟨by decide +kernel, (placement_within_iff above_staging 0).2
    (((exact_placeAndPatch above_staging 0).allowed _ rfl).1 hall)⟩

/-- A segment that claims no memory is not checked, and still copied: here over the staging area itself. -/
theorem not_placed_within_memless :
    ¬PlacedWithin (staged (oneSegment NB_STAGING_BASE 0)) NB_STAGING_BASE 124 0 := by
  intro hp
  have hmem : Access.store NB_STAGING_BASE 4 ∈
      (placeAndPatch NB_STAGING_BASE 124 0).log (staged (oneSegment NB_STAGING_BASE 0)) := by decide +kernel
  have hout := hp.stores _ hmem rfl 0 (by decide)
  exact absurd hout (by decide)

end AieHlc.Netboot
