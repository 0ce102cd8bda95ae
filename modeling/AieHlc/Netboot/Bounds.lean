import AieHlc.Netboot.Elfload

/-!
# Where the loader reads and writes

The checks of the loader are sums of 64-bit numbers from the image. This file says exactly for which
images all it loads lies in the image and all it stores in app memory, in terms of sums that do not
wrap.

* `Access.Within`: every byte of an access lies where it should.
* `SameImage`: memory still holds the image it held at first.
* `exact_load`, `exact_strcmp`, `exact_store`, `exact_memcpy`: when one access is within, and what it reads.
-/

namespace AieHlc.Netboot

open List AieHlc.Prog

/-- Every byte that is loaded is one of the image, every byte that is stored one of app memory. -/
def Access.Within (img size : ℕ) : Access → Prop
  | .load a len => ∀ j < len, img ≤ wrap (a + j) ∧ wrap (a + j) < img + size
  | .peek _ _ => True
  | .store a len => ∀ j < len, wrap (a + j) < NB_APP_LIMIT

instance (img size : ℕ) : DecidablePred (Access.Within img size)
  | .load a len => inferInstanceAs (Decidable (∀ j < len, img ≤ wrap (a + j) ∧ wrap (a + j) < img + size))
  | .peek _ _ => inferInstanceAs (Decidable True)
  | .store a len => inferInstanceAs (Decidable (∀ j < len, wrap (a + j) < NB_APP_LIMIT))

/-- The image lies in memory, and above app memory. -/
structure Above (img size : ℕ) : Prop where
  limit : NB_APP_LIMIT ≤ img
  fits : img + size ≤ 2 ^ 64

/-- Memory holds the image of `m`. -/
def SameImage (m : Mem) (img size : ℕ) (μ : Mem) : Prop := ∀ x, img ≤ x → x < img + size → μ x = m x

section Access

variable {m : Mem} {img size : ℕ} {R : Mem → Prop}

theorem within_load_iff (h : Above img size) {off len : ℕ} (hlen : 0 < len) :
    (Access.load (wrap (img + off)) len).Within img size ↔ wrap off + len ≤ size := by
  have hlim := h.limit
  have hfits := h.fits
  unfold Access.Within
  unfold NB_APP_LIMIT at hlim
  constructor
  · intro hall
    -- the first byte that would not be in the image
    by_contra hover
    have hlast := hall (size - wrap off)
    unfold wrap at *
    omega
  · intro hle j hj
    unfold wrap at *
    omega

theorem within_store_iff {a len : ℕ} (ha : a < 2 ^ 64) (hlen : 0 < len) :
    (Access.store (wrap a) len).Within img size ↔ a + len ≤ NB_APP_LIMIT := by
  unfold Access.Within
  rw [wrap_of_lt ha]
  constructor
  · intro hall
    by_contra hover
    have hlast := hall (NB_APP_LIMIT - a)
    unfold wrap NB_APP_LIMIT at *
    omega
  · intro hle j hj
    unfold wrap NB_APP_LIMIT at *
    omega

theorem SameImage.bytes {μ : Mem} (hμ : SameImage m img size μ) (h : Above img size) {off len : ℕ}
    (hfit : wrap off + len ≤ size) :
    ∀ j < len, m (wrap (wrap (img + off) + j)) = μ (wrap (wrap (img + off) + j)) := by
  intro j hj
  have hfits := h.fits
  symm
  apply hμ
  · unfold wrap at *
    omega
  · unfold wrap at *
    omega

theorem exact_load {α : Type} {read : Mem → ℕ → α} {off len : ℕ} (h : Above img size)
    (hR : ∀ μ, R μ → SameImage m img size μ) (hread : Local read len) (hlen : 0 < len) :
    Exact (Access.Within img size) R (load (img + off) len read) (wrap off + len ≤ size)
      (read m (wrap (img + off))) R where
  allowed μ _ := by
    change (∀ w ∈ [Access.load (wrap (img + off)) len], w.Within img size) ↔ _
    rw [forall_mem_singleton, within_load_iff h hlen]
  val μ hμ hfit := (hread m μ _ ((hR μ hμ).bytes h hfit)).symm
  state μ hμ _ := hμ

theorem exact_strcmp {text : List UInt8} {off : ℕ} (h : Above img size)
    (hR : ∀ μ, R μ → SameImage m img size μ) (htext : text ≠ []) :
    Exact (Access.Within img size) R (strcmp (img + off) text)
      (wrap off + (compare m (wrap (img + off)) text).2 ≤ size) (compare m (wrap (img + off)) text).1 R := by
  obtain ⟨c, cs, rfl⟩ := exists_cons_of_ne_nil htext
  have hsame : ∀ μ, R μ → wrap off + (compare m (wrap (img + off)) (c :: cs)).2 ≤ size →
      compare m (wrap (img + off)) (c :: cs) = compare μ (wrap (img + off)) (c :: cs) :=
    fun μ hμ hfit => compare_congr ((hR μ hμ).bytes h hfit)
  constructor
  · intro μ hμ
    change (∀ w ∈ [Access.load (wrap (img + off)) (compare μ (wrap (img + off)) (c :: cs)).2],
      w.Within img size) ↔ _
    rw [forall_mem_singleton, within_load_iff h compare_pos]
    constructor
    · intro hfit
      have heq : compare μ (wrap (img + off)) (c :: cs) = compare m (wrap (img + off)) (c :: cs) :=
        compare_congr fun j hj => ((hR μ hμ).bytes h hfit j hj).symm
      rwa [← heq]
    · intro hfit
      rwa [← hsame μ hμ hfit]
  · intro μ hμ hfit
    exact congrArg Prod.fst (hsame μ hμ hfit).symm
  · intro μ hμ _
    exact hμ

theorem SameImage.write {μ : Mem} (hμ : SameImage m img size μ) (h : Above img size) {a len : ℕ}
    {byte : ℕ → UInt8}
    (ha : a < 2 ^ 64) (hfit : a + len ≤ NB_APP_LIMIT) : SameImage m img size (μ.write a len byte) := by
  intro x hx hlt
  have hlim := h.limit
  have hfits := h.fits
  have hout : ¬wrap (x + 2 ^ 64 - wrap a) < len := by
    rw [wrap_of_lt ha]
    unfold wrap
    omega
  rw [Mem.write, if_neg hout]
  exact hμ x hx hlt

theorem exact_store {a len : ℕ} {byte : ℕ → UInt8} (h : Above img size) (ha : a < 2 ^ 64) (hlen : 0 < len)
    (hR : ∀ μ, R μ → SameImage m img size μ) :
    Exact (Access.Within img size) R (store a len byte) (a + len ≤ NB_APP_LIMIT) ()
      (SameImage m img size) where
  allowed μ _ := by
    change (∀ w ∈ [Access.store (wrap a) len], w.Within img size) ↔ _
    rw [forall_mem_singleton, within_store_iff ha hlen]
  val μ _ _ := rfl
  state μ hμ hfit := (hR μ hμ).write h ha hfit

theorem exact_memcpy {dst off len : ℕ} (h : Above img size) (hdst : dst < 2 ^ 64) (hlen : 0 < len) :
    Exact (Access.Within img size) (SameImage m img size) (memcpy dst (img + off) len)
      (wrap off + len ≤ size ∧ dst + len ≤ NB_APP_LIMIT) () (SameImage m img size) where
  allowed μ _ := by
    change (∀ w ∈ [Access.load (wrap (img + off)) len, Access.store (wrap dst) len], w.Within img size) ↔ _
    rw [forall_mem_cons, forall_mem_singleton, within_load_iff h hlen, within_store_iff hdst hlen]
  val μ _ _ := rfl
  state μ hμ hfit := by
    change SameImage m img size (μ.write dst len fun j => μ (wrap (img + off + j)))
    exact hμ.write h hdst hfit.2

/-- The entries of a table that are come to begin in the image without wrapping. -/
theorem fits_table_iff {off k n l : ℕ} {V : ℕ → Prop} (hoff : off < 2 ^ 64) (hsize : size + k < 2 ^ 64)
    (hV : ∀ i, V (i + 1) → V i) :
    (∀ i < n, V i → wrap (off + k * i) + l ≤ size) ↔ ∀ i < n, V i → off + k * i + l ≤ size := by
  constructor
  · intro hall i
    induction i with
    | zero =>
      intro hi hv
      have hfit := hall 0 hi hv
      rwa [mul_zero, add_zero, wrap_of_lt hoff] at hfit
    | succ i ih =>
      intro hi hv
      -- the entry before begins in the image, so this one does so without wrapping
      have hbefore := ih (by omega) (hV i hv)
      have hfit := hall (i + 1) hi hv
      rw [Nat.mul_succ] at hfit ⊢
      rwa [wrap_of_lt (by omega)] at hfit
  · intro hall i hi hv
    have hfit := hall i hi hv
    rwa [wrap_of_lt (by omega)]

end Access

/-! ## The headers of an image -/

section Headers

variable (m : Mem) (img size : ℕ)

def ehdr : Ehdr := Ehdr.read m (wrap img)

def phdr (i : ℕ) : Phdr := Phdr.read m (wrap (img + ((ehdr m img).phoff + sizeofPhdr * i)))

def shdr (i : ℕ) : Shdr :=
  let field (off len : ℕ) : ℕ := le m (img + ((ehdr m img).shoff + sizeofShdr * i + off)) len
  ⟨field 0 4, field 4 4, field 8 8, field 16 8, field 24 8, field 32 8, field 40 4⟩

def sym (symtab k : ℕ) : Sym :=
  ⟨le m (img + (symtab + sizeofSym * k)) 4, le m (img + (symtab + sizeofSym * k + 8)) 8⟩

/-- What `check_headers` returns. -/
def headerFault : Option PlaceError :=
  if size < sizeofEhdr then some .short
  else match ehdrFault size (ehdr m img) with
    | some e => some e
    | none => (range (ehdr m img).phnum).findSome? fun i => phdrFault size i (phdr m img i)

/-- The program headers up to the first that is refused lie in the image. -/
def PhdrsWithin : Prop :=
  sizeofEhdr ≤ size → ehdrFault size (ehdr m img) = none → ∀ i < (ehdr m img).phnum,
    (∀ j < i, phdrFault size j (phdr m img j) = none) → (ehdr m img).phoff + sizeofPhdr * i +
      sizeofPhdr ≤ size

variable {m img size} {R : Mem → Prop} (h : Above img size) (hR : ∀ μ, R μ → SameImage m img size μ)

/-- Below an image there is room for the largest table. -/
theorem Above.size_lt (h : Above img size) : size + sizeofShdr * 2 ^ 16 < 2 ^ 64 := by
  have hlim := h.limit
  have hfits := h.fits
  unfold NB_APP_LIMIT at hlim
  unfold sizeofShdr
  omega

theorem Above.entry_lt (h : Above img size) {k : ℕ} (hk : k ≤ sizeofShdr) : size + k < 2 ^ 64 := by
  have hlt := h.size_lt
  unfold sizeofShdr at *
  omega

include h hR in
theorem exact_loadEhdr : Exact (Access.Within img size) R (loadEhdr img) (sizeofEhdr ≤ size)
    (ehdr m img) R := by
  have hload : Exact (Access.Within img size) R (load (img + 0) sizeofEhdr Ehdr.read) _ _ R :=
    exact_load h hR Ehdr.local_read (by decide)
  exact hload.congr (by simp [wrap])

include h hR in
theorem exact_loadPhdr (i : ℕ) : Exact (Access.Within img size) R (loadPhdr img (ehdr m img) i)
    (wrap ((ehdr m img).phoff + sizeofPhdr * i) + sizeofPhdr ≤ size) (phdr m img i) R :=
  exact_load h hR Phdr.local_read (by decide)

include h hR in
/-- A field of a section header or symbol. -/
theorem exact_loadField {off len : ℕ} (hlen : 0 < len) :
    Exact (Access.Within img size) R (loadField (img + off) len) (wrap off + len ≤ size)
      (le m (img + off) len) R := by
  rw [← le_wrap]
  exact exact_load h hR (local_le len) hlen

theorem phoff_lt : (ehdr m img).phoff < 2 ^ 64 := le_lt _ _ 8

variable (m img) in
theorem shoff_lt : (ehdr m img).shoff < 2 ^ 64 := le_lt _ _ 8

include h in
theorem exact_checkEhdr (hfault : ehdrFault size (ehdr m img) = none) :
    Exact (Access.Within img size) (SameImage m img size) (checkEhdr img size (ehdr m img))
      (∀ i < (ehdr m img).phnum, (∀ j < i, phdrFault size j (phdr m img j) = none) →
        (ehdr m img).phoff + sizeofPhdr * i + sizeofPhdr ≤ size)
      ((range (ehdr m img).phnum).findSome? fun i => phdrFault size i (phdr m img i))
        (SameImage m img size) := by
  have hround : ∀ i, Exact (Access.Within img size) (SameImage m img size) (checkPhdr img size (ehdr m img) i)
      (wrap ((ehdr m img).phoff + sizeofPhdr * i) + sizeofPhdr ≤ size) (phdrFault size i (phdr m img i))
      fun μ => if phdrFault size i (phdr m img i) = none then SameImage m img size μ
        else SameImage m img size μ := by
    intro i
    refine Exact.post ((exact_loadPhdr h (fun _ hμ => hμ) i).bind_pure (phdrFault size i)) ?_
    intro _ μ hμ
    rwa [ite_self]
  unfold checkEhdr
  simp only [hfault]
  have hloop := Exact.findSomeM? (l := range (ehdr m img).phnum) fun i _ => hround i
  simp only [ite_self] at hloop
  refine hloop.congr ?_
  rw [visits_range]
  apply fits_table_iff phoff_lt (h.entry_lt (by decide))
  intro i hvis j hj
  exact hvis j (by omega)

include h in
/-- **The checks of the headers** read in the image exactly when the headers they come to lie there. -/
theorem exact_checkHeaders : Exact (Access.Within img size) (SameImage m img size) (checkHeaders img size)
    (PhdrsWithin m img size) (headerFault m img size) (SameImage m img size) := by
  have hR : ∀ μ, SameImage m img size μ → SameImage m img size μ := fun _ hμ => hμ
  unfold checkHeaders headerFault PhdrsWithin
  by_cases hshort : size < sizeofEhdr
  · rw [if_pos hshort, if_pos hshort]
    exact (Exact.pure _ hR).congr (iff_of_true trivial fun hle => by omega)
  · rw [if_neg hshort, if_neg hshort]
    have hle : sizeofEhdr ≤ size := by omega
    cases hfault : ehdrFault size (ehdr m img) with
    | some e =>
      have hrest : Exact (Access.Within img size) (SameImage m img size)
        (checkEhdr img size (ehdr m img)) True (some e)
          (SameImage m img size) := by
        unfold checkEhdr
        simp only [hfault]
        exact Exact.pure _ hR
      exact ((exact_loadEhdr h hR).bind fun _ => hrest).congr (by simp [hle])
    | none =>
      have hrest := exact_checkEhdr h hfault
      exact ((exact_loadEhdr h hR).bind fun _ => hrest).congr (by simp [hle])

end Headers

/-! ## Segments and sections -/

section Place

variable (m : Mem) (img size : ℕ)

/-- A segment that is copied comes from the image and goes to app memory. -/
def SegmentWithin (i : ℕ) : Prop :=
  ¬((phdr m img i).type ≠ PT_LOAD ∨ (phdr m img i).filesz = 0) →
    (phdr m img i).offset + (phdr m img i).filesz ≤ size ∧
      (phdr m img i).paddr + (phdr m img i).filesz ≤ NB_APP_LIMIT

/-- A name of the image is compared with a text within the image. -/
def TextWithin (off : ℕ) (text : List UInt8) : Prop := wrap off + (compare m (wrap (img + off)) text).2 ≤ size

def textIs (off : ℕ) (text : List UInt8) : Bool := (compare m (wrap (img + off)) text).1

def shstr : Shdr := shdr m img (ehdr m img).shstrndx

/-- A section that `zero_bss` clears, unless its name or range says otherwise. -/
def Bss (sh : Shdr) : Prop :=
  sh.type = SHT_NOBITS ∧ ¬(sh.flags &&& SHF_ALLOC = 0 ∨ sh.flags &&& SHF_TLS ≠ 0) ∧ sh.size ≠ 0

instance (sh : Shdr) : Decidable (Bss sh) := inferInstanceAs (Decidable (_ ∧ _))

/-- The name of a section can be looked up. -/
def nameKnown (sh : Shdr) : Prop :=
  sh.name < (shstr m img).size ∧ wrap ((shstr m img).offset + (shstr m img).size) ≤ size

instance (sh : Shdr) : Decidable (nameKnown m img size sh) := inferInstanceAs (Decidable (_ ∧ _))

/-- The name of a section is compared within the image. -/
def NameWithin (sh : Shdr) : Prop :=
  nameKnown m img size sh → TextWithin m img size ((shstr m img).offset + sh.name) heapName ∧
    (textIs m img ((shstr m img).offset + sh.name) heapName = false →
      TextWithin m img size ((shstr m img).offset + sh.name) stackName)

def keptOut (sh : Shdr) : Bool :=
  if nameKnown m img size sh then
    if textIs m img ((shstr m img).offset + sh.name) heapName then true
    else textIs m img ((shstr m img).offset + sh.name) stackName
  else false

/-- The section table ends in the image. It may begin up to four bytes before the image, where
`e_shoff` wraps: the first field that is read of a header is its second. -/
def TableWithin : Prop :=
  (ehdr m img).shoff + sizeofShdr * (ehdr m img).shnum ≤ size ∨ 2 ^ 64 ≤ (ehdr m img).shoff + 4

variable {m img size} {R : Mem → Prop} (h : Above img size)

include h in
theorem exact_copySegment (placed i : ℕ) :
    Exact (Access.Within img size) (SameImage m img size) (copySegment img (ehdr m img) placed i)
      (wrap ((ehdr m img).phoff + sizeofPhdr * i) + sizeofPhdr ≤ size ∧ SegmentWithin m img size i)
      (if (phdr m img i).type ≠ PT_LOAD ∨ (phdr m img i).filesz = 0 then placed
        else wrap (placed + (phdr m img i).filesz))
      (SameImage m img size) := by
  have hoff : (phdr m img i).offset < 2 ^ 64 := le_lt _ _ 8
  have hpaddr : (phdr m img i).paddr < 2 ^ 64 := le_lt _ _ 8
  refine (exact_loadPhdr h (fun _ hμ => hμ) i).bind fun _ => ?_
  unfold SegmentWithin
  by_cases hskip : (phdr m img i).type ≠ PT_LOAD ∨ (phdr m img i).filesz = 0
  · rw [if_pos hskip, if_pos hskip]
    exact (Exact.pure _ fun _ hμ => hμ).congr (iff_of_true trivial fun hn => absurd hskip hn)
  · rw [if_neg hskip, if_neg hskip]
    have hlen : 0 < (phdr m img i).filesz := Nat.pos_of_ne_zero fun hz => hskip (.inr hz)
    refine ((exact_memcpy h hpaddr hlen).bind_pure _).congr ?_
    rw [wrap_of_lt hoff]
    exact ⟨fun hfit _ => hfit, fun hfit => hfit hskip⟩

/-- The code found that the section table ends in the image, in a sum that may have wrapped. -/
abbrev TableChecked (m : Mem) (img size : ℕ) : Prop :=
  wrap ((ehdr m img).shoff + (ehdr m img).shnum * sizeofShdr) ≤ size

variable (m img) in
theorem shnum_lt : (ehdr m img).shnum < 2 ^ 16 := le_lt _ _ 2

include h in
/-- Of a table that is not in the image, the first field that is read lies outside. -/
theorem stuck_shType (hR : ∀ μ, R μ → SameImage m img size μ) (hc : TableChecked m img size)
    (ht : ¬TableWithin m img size) (hpos : 0 < (ehdr m img).shnum) :
    Exact (Access.Within img size) R (shType img (ehdr m img) 0) False (shdr m img 0).type R := by
  refine (exact_loadField h hR (by decide)).congr (iff_of_false ?_ id)
  have hoff := shoff_lt m img
  have hnum := shnum_lt m img
  have hsize := h.size_lt
  unfold TableWithin at ht
  unfold TableChecked at hc
  unfold wrap sizeofShdr at *
  omega

section Table

variable (hR : ∀ μ, R μ → SameImage m img size μ) (hc : TableChecked m img size) (ht : TableWithin m img size)

include h hR hc ht in
/-- All other fields are in the image then. -/
theorem exact_shField {i off len : ℕ} (hi : i < (ehdr m img).shnum) (hoff : 4 ≤ off)
    (hend : off + len ≤ sizeofShdr)
    (hlen : 0 < len) : Exact (Access.Within img size) R (shField img (ehdr m img) i off len) True
      (le m (img + ((ehdr m img).shoff + sizeofShdr * i + off)) len) R := by
  refine (exact_loadField h hR hlen).congr (iff_of_true ?_ trivial)
  have hshoff := shoff_lt m img
  have hnum := shnum_lt m img
  have hsize := h.size_lt
  unfold TableWithin at ht
  unfold TableChecked at hc
  unfold wrap sizeofShdr at *
  omega

variable {i : ℕ} (hi : i < (ehdr m img).shnum)

include h hR hc ht hi

/-- The first field of a header, which only the first header can have outside. -/
theorem exact_shName : Exact (Access.Within img size) R (shName img (ehdr m img) i)
    (i = 0 → (ehdr m img).shoff + 4 ≤ size) (shdr m img i).name R := by
  refine (exact_loadField h hR (by decide)).congr ?_
  have hshoff := shoff_lt m img
  have hnum := shnum_lt m img
  have hsize := h.size_lt
  unfold TableWithin at ht
  unfold TableChecked at hc
  unfold wrap sizeofShdr at *
  omega

theorem exact_shType : Exact (Access.Within img size) R (shType img (ehdr m img) i) True
    (shdr m img i).type R :=
  exact_shField h hR hc ht hi (by decide) (by decide) (by decide)

theorem exact_shFlags : Exact (Access.Within img size) R (shFlags img (ehdr m img) i) True
    (shdr m img i).flags R :=
  exact_shField h hR hc ht hi (by decide) (by decide) (by decide)

theorem exact_shAddr : Exact (Access.Within img size) R (shAddr img (ehdr m img) i) True
    (shdr m img i).addr R :=
  exact_shField h hR hc ht hi (by decide) (by decide) (by decide)

theorem exact_shOffset : Exact (Access.Within img size) R (shOffset img (ehdr m img) i) True
    (shdr m img i).offset R :=
  exact_shField h hR hc ht hi (by decide) (by decide) (by decide)

theorem exact_shSize : Exact (Access.Within img size) R (shSize img (ehdr m img) i) True
    (shdr m img i).size R :=
  exact_shField h hR hc ht hi (by decide) (by decide) (by decide)

theorem exact_shLink : Exact (Access.Within img size) R (shLink img (ehdr m img) i) True
    (shdr m img i).link R :=
  exact_shField h hR hc ht hi (by decide) (by decide) (by decide)

theorem exact_isBss : Exact (Access.Within img size) R (isBss img (ehdr m img) i) True
    (decide (Bss (shdr m img i))) R := by
  refine (exact_shType h hR hc ht hi).next ?_
  by_cases htype : (shdr m img i).type ≠ SHT_NOBITS
  · rw [if_pos htype, decide_eq_false fun hb : Bss _ => htype hb.1]
    exact Exact.pure _ fun _ hμ => hμ
  rw [if_neg htype]
  refine (exact_shFlags h hR hc ht hi).next ?_
  by_cases hflags : (shdr m img i).flags &&& SHF_ALLOC = 0 ∨ (shdr m img i).flags &&& SHF_TLS ≠ 0
  · rw [if_pos hflags, decide_eq_false fun hb : Bss _ => hb.2.1 hflags]
    exact Exact.pure _ fun _ hμ => hμ
  rw [if_neg hflags]
  have hbss : Bss (shdr m img i) ↔ (shdr m img i).size ≠ 0 :=
    ⟨fun hb => hb.2.2, fun hz => ⟨not_not.1 htype, hflags, hz⟩⟩
  rw [decide_eq_decide.2 hbss]
  exact (exact_shSize h hR hc ht hi).bind_pure fun n => decide (n ≠ 0)

omit hR hi

theorem exact_isHeapOrStack {i : ℕ} (hi : i < (ehdr m img).shnum)
    (hidx : (ehdr m img).shstrndx < (ehdr m img).shnum) :
    Exact (Access.Within img size) (SameImage m img size) (isHeapOrStack img size (ehdr m img) i)
      ((i = 0 → (ehdr m img).shoff + 4 ≤ size) ∧ NameWithin m img size (shdr m img i))
      (keptOut m img size (shdr m img i)) (SameImage m img size) := by
  have hR : ∀ μ, SameImage m img size μ → SameImage m img size μ := fun _ hμ => hμ
  refine (exact_shName h hR hc ht hi).bind fun _ => ?_
  have hsize : Exact (Access.Within img size) (SameImage m img size) _ True (shstr m img).size _ :=
    exact_shSize h hR hc ht hidx
  have hoffset : Exact (Access.Within img size) (SameImage m img size) _ True (shstr m img).offset _ :=
    exact_shOffset h hR hc ht hidx
  refine hsize.next ?_
  unfold NameWithin keptOut
  by_cases hname : (shdr m img i).name < (shstr m img).size
  case neg =>
    have hno : ¬nameKnown m img size (shdr m img i) := fun hk => hname hk.1
    rw [if_neg hname, if_neg hno]
    exact (Exact.pure _ hR).congr (iff_of_true trivial fun hk => absurd hk hno)
  rw [if_pos hname]
  refine hoffset.next ?_
  by_cases hstr : wrap ((shstr m img).offset + (shstr m img).size) ≤ size
  case neg =>
    have hno : ¬nameKnown m img size (shdr m img i) := fun hk => hstr hk.2
    rw [if_neg hstr, if_neg hno]
    exact (Exact.pure _ hR).congr (iff_of_true trivial fun hk => absurd hk hno)
  have hknown : nameKnown m img size (shdr m img i) := ⟨hname, hstr⟩
  rw [if_pos hstr, if_pos hknown]
  have hheap : Exact (Access.Within img size) (SameImage m img size) _ _
      (textIs m img ((shstr m img).offset + (shdr m img i).name) heapName) _ := exact_strcmp h hR (by decide)
  cases hheq : textIs m img ((shstr m img).offset + (shdr m img i).name) heapName with
  | true =>
    rw [hheq] at hheap
    have hret : Exact (Access.Within img size) (SameImage m img size) (pure true : NbM Bool) True true
        (SameImage m img size) := Exact.pure _ hR
    refine Exact.congr (hheap.bind fun _ => hret) ?_
    simp [hknown, TextWithin]
  | false =>
    rw [hheq] at hheap
    have hstack : Exact (Access.Within img size) (SameImage m img size) _ _
        (textIs m img ((shstr m img).offset + (shdr m img i).name) stackName) _ :=
          exact_strcmp h hR (by decide)
    refine Exact.congr (hheap.bind fun _ => hstack) ?_
    simp [hknown, TextWithin]

omit h hc ht

/-- A section that is cleared. -/
def Cleared (m : Mem) (img size : ℕ) (sh : Shdr) : Prop :=
  Bss sh ∧ ¬(keptOut m img size sh = true ∨ outside sh.addr sh.size)

instance (sh : Shdr) : Decidable (Cleared m img size sh) := inferInstanceAs (Decidable (_ ∧ _))

theorem add_le_of_not_outside {lo len : ℕ} (hlo : lo < 2 ^ 64) (hlen : len < 2 ^ 64)
    (hout : ¬outside lo len) :
    lo + len ≤ NB_APP_LIMIT := by
  unfold outside wrap NB_APP_LIMIT at hout
  unfold NB_APP_LIMIT
  omega

include h hc ht in
theorem exact_clearSection {i : ℕ} (hi : i < (ehdr m img).shnum) (hsize : (shdr m img i).size ≠ 0)
    (zeroed : ℕ) :
    Exact (Access.Within img size) (SameImage m img size) (clearSection img (ehdr m img) zeroed i) True
      (if outside (shdr m img i).addr (shdr m img i).size then zeroed
        else wrap (zeroed + (shdr m img i).size))
      (SameImage m img size) := by
  have hR : ∀ μ, SameImage m img size μ → SameImage m img size μ := fun _ hμ => hμ
  have haddr : (shdr m img i).addr < 2 ^ 64 := le_lt _ _ 8
  refine (exact_shAddr h hR hc ht hi).next ?_
  refine (exact_shSize h hR hc ht hi).next ?_
  by_cases hout : outside (shdr m img i).addr (shdr m img i).size
  · rw [if_pos hout, if_pos hout]
    exact Exact.pure _ hR
  · rw [if_neg hout, if_neg hout]
    refine ((exact_store h haddr (Nat.pos_of_ne_zero hsize) hR).bind_pure _).congr (iff_of_true ?_ trivial)
    exact add_le_of_not_outside haddr (le_lt _ _ 8) hout

include h hc ht in
theorem exact_zeroSection {i : ℕ} (hi : i < (ehdr m img).shnum)
    (hidx : (ehdr m img).shstrndx < (ehdr m img).shnum)
    (zeroed : ℕ) : Exact (Access.Within img size) (SameImage m img size)
      (zeroSection img size (ehdr m img) zeroed i)
      (Bss (shdr m img i) → (i = 0 → (ehdr m img).shoff + 4 ≤ size) ∧ NameWithin m img size (shdr m img i))
      (if Cleared m img size (shdr m img i) then wrap (zeroed + (shdr m img i).size) else zeroed)
      (SameImage m img size) := by
  have hR : ∀ μ, SameImage m img size μ → SameImage m img size μ := fun _ hμ => hμ
  refine (exact_isBss h hR hc ht hi).next ?_
  by_cases hbss : Bss (shdr m img i)
  case neg =>
    have hno : ¬Cleared m img size (shdr m img i) := fun hcl => hbss hcl.1
    rw [decide_eq_false hbss, if_pos rfl, if_neg hno]
    exact (Exact.pure _ hR).congr (iff_of_true trivial fun hb => absurd hb hbss)
  rw [decide_eq_true hbss, if_neg (by decide)]
  have hskip := exact_isHeapOrStack (m := m) h hc ht hi hidx
  cases hkept : keptOut m img size (shdr m img i) with
  | true =>
    rw [hkept] at hskip
    have hno : ¬Cleared m img size (shdr m img i) := fun hcl => hcl.2 (.inl hkept)
    rw [if_neg hno]
    refine Exact.congr (hskip.bind (D := True) fun _ => ?_) (by simp [hbss])
    rw [if_pos rfl]
    exact Exact.pure _ hR
  | false =>
    rw [hkept] at hskip
    refine Exact.congr (hskip.bind (D := True) fun _ => ?_) (by simp [hbss])
    rw [if_neg (by decide)]
    have hclear := exact_clearSection h hc ht hi hbss.2.2 zeroed
    by_cases hout : outside (shdr m img i).addr (shdr m img i).size
    · have hno : ¬Cleared m img size (shdr m img i) := fun hcl => hcl.2 (.inr hout)
      rw [if_neg hno]
      rwa [if_pos hout] at hclear
    · have hyes : Cleared m img size (shdr m img i) := ⟨hbss, by simp [hkept, hout]⟩
      rw [if_pos hyes]
      rwa [if_neg hout] at hclear

end Table

variable (m img size) in
/-- The section table lies in the image, and so do the names that are looked up. -/
def SectionsWithin : Prop :=
  ¬noSections size (ehdr m img) → TableWithin m img size ∧ ∀ i < (ehdr m img).shnum, Bss (shdr m img i) →
    (i = 0 → (ehdr m img).shoff + 4 ≤ size) ∧ NameWithin m img size (shdr m img i)

variable (m img size) in
/-- What `zero_bss` returns. -/
def zeroedBytes : ℕ :=
  if noSections size (ehdr m img) then 0
  else (range (ehdr m img).shnum).foldl
    (fun zeroed i => if Cleared m img size (shdr m img i) then wrap (zeroed + (shdr m img i).size)
      else zeroed) 0

include h in
theorem exact_zeroBss : Exact (Access.Within img size) (SameImage m img size) (zeroBss img size)
    (sizeofEhdr ≤ size ∧ SectionsWithin m img size) (zeroedBytes m img size) (SameImage m img size) := by
  have hR : ∀ μ, SameImage m img size μ → SameImage m img size μ := fun _ hμ => hμ
  refine (exact_loadEhdr h hR).bind fun _ => ?_
  unfold SectionsWithin zeroedBytes
  by_cases hno : noSections size (ehdr m img)
  · rw [if_pos hno, if_pos hno]
    exact (Exact.pure _ hR).congr (iff_of_true trivial fun hn => absurd hno hn)
  rw [if_neg hno, if_neg hno]
  obtain ⟨hidx, hc⟩ : (ehdr m img).shstrndx < (ehdr m img).shnum ∧ TableChecked m img size := by
    unfold noSections at hno
    unfold TableChecked
    omega
  have hpos : 0 < (ehdr m img).shnum := Nat.zero_lt_of_lt hidx
  by_cases ht : TableWithin m img size
  · refine (Exact.foldlM (fun i hi zeroed => exact_zeroSection h hc ht (mem_range.1 hi) hidx zeroed)
      0).congr ?_
    simp only [mem_range, hno, not_false_eq_true, ht, true_and, forall_const]
  · refine Exact.congr (C := False) ?_ (iff_of_false id fun hall => ht (hall hno).1)
    obtain ⟨n, hn⟩ := Nat.exists_eq_succ_of_ne_zero hpos.ne'
    rw [hn, range_succ_eq_map, foldlM_cons]
    have hbss : Exact (Access.Within img size) (SameImage m img size) (isBss img (ehdr m img) 0) False false
        (SameImage m img size) := (stuck_shType h hR hc ht hpos).stuck id false
    have hsect : Exact (Access.Within img size) (SameImage m img size)
      (zeroSection img size (ehdr m img) 0 0) False 0
        (SameImage m img size) := hbss.stuck id 0
    exact hsect.stuck id _

theorem headerFault_eq_none : headerFault m img size = none ↔ sizeofEhdr ≤ size ∧
    ehdrFault size (ehdr m img) = none ∧
    ∀ i < (ehdr m img).phnum, phdrFault size i (phdr m img i) = none := by
  unfold headerFault
  by_cases hshort : size < sizeofEhdr
  · rw [if_pos hshort]
    exact iff_of_false nofun fun hok => absurd hok.1 (by omega)
  · rw [if_neg hshort]
    cases hfault : ehdrFault size (ehdr m img) with
    | some e => simp
    | none =>
      simp only [findSome?_eq_none_iff, mem_range, true_and]
      exact ⟨fun hall => ⟨by omega, hall⟩, fun hall => hall.2⟩

variable (m img) in
/-- The bytes the copy loop of `elf_place` counts. -/
def placedBytes : ℕ :=
  (range (ehdr m img).phnum).foldl (fun placed i =>
    if (phdr m img i).type ≠ PT_LOAD ∨ (phdr m img i).filesz = 0 then placed
    else wrap (placed + (phdr m img i).filesz)) 0

variable (m img size) in
/-- What `elf_place` returns. -/
def placeResult : Except PlaceError Placed :=
  match headerFault m img size with
  | some e => .error e
  | none => .ok ⟨placedBytes m img, zeroedBytes m img size, (ehdr m img).entry⟩

variable (m img size) in
/-- What is copied and cleared once the headers are accepted. -/
structure BodyWithin : Prop where
  segments : ∀ i < (ehdr m img).phnum, SegmentWithin m img size i
  sections : SectionsWithin m img size

include h in
theorem exact_placeBody :
    Exact (Access.Within img size) (SameImage m img size) (placeBody img size (ehdr m img))
    ((∀ i ∈ range (ehdr m img).phnum, wrap ((ehdr m img).phoff + sizeofPhdr * i) + sizeofPhdr ≤ size ∧
      SegmentWithin m img size i) ∧ sizeofEhdr ≤ size ∧ SectionsWithin m img size)
    (.ok ⟨placedBytes m img, zeroedBytes m img size, (ehdr m img).entry⟩) (SameImage m img size) := by
  have hcopies : Exact (Access.Within img size) (SameImage m img size)
      ((range (ehdr m img).phnum).foldlM (copySegment img (ehdr m img)) 0) _ (placedBytes m img)
      (SameImage m img size) := Exact.foldlM (fun i _ placed => exact_copySegment h placed i) 0
  unfold placeBody
  apply Exact.bind hcopies
  intro _
  exact (exact_zeroBss (m := m) h).bind_pure fun zeroed =>
    Except.ok (Placed.mk (placedBytes m img) zeroed (ehdr m img).entry)

include h in
/-- **`elf_place`** stays within exactly when the headers it comes to lie in the image and, once
they are accepted, so do the segments and sections. -/
theorem exact_elfPlace : Exact (Access.Within img size) (SameImage m img size) (elfPlace img size)
    (PhdrsWithin m img size ∧ (headerFault m img size = none → BodyWithin m img size))
      (placeResult m img size)
    (SameImage m img size) := by
  have hR : ∀ μ, SameImage m img size μ → SameImage m img size μ := fun _ hμ => hμ
  refine (exact_checkHeaders h).bind fun hphdrs => ?_
  unfold placeResult
  cases hfault : headerFault m img size with
  | some e => exact (Exact.pure _ hR).congr (iff_of_true trivial nofun)
  | none =>
    obtain ⟨hsize, hehdr, hall⟩ := headerFault_eq_none.1 hfault
    -- every header was looked at, so all of them lie in the image
    have htable : ∀ i < (ehdr m img).phnum, wrap ((ehdr m img).phoff + sizeofPhdr * i) +
        sizeofPhdr ≤ size := by
      have hlt := h.entry_lt le_rfl
      intro i hi
      have hfit := hphdrs hsize hehdr i hi fun j hj => hall j (by omega)
      rwa [wrap_of_lt (by omega)]
    refine Exact.congr ((exact_loadEhdr h hR).bind fun _ => exact_placeBody h) ?_
    constructor
    · rintro ⟨-, hcopy, -, hsect⟩ -
      exact ⟨fun i hi => (hcopy i (mem_range.2 hi)).2, hsect⟩
    · intro hbody
      obtain ⟨hseg, hsect⟩ := hbody rfl
      exact ⟨hsize, fun i hi => ⟨htable i (mem_range.1 hi), hseg i (mem_range.1 hi)⟩, hsize, hsect⟩

end Place

end AieHlc.Netboot
