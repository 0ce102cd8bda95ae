import AieHlc.Lower.Window

/-!
# Core memory over a whole run

`CoreMemAllocator` (`ResourceManager.cpp`) over any sequence of calls and resets, with any
power of two as alignment and in 32-bit arithmetic.

* `MemState.step`: a call, with the ranges returned since the last reset.
* `CallSound`: what a call should return, by those ranges.
* `CallFits`: a name that has a slot is asked for no more than the slot has, and for a new
  name no 32-bit sum wraps.
* `memory_sound`: **in every run of calls that fit, all calls are sound.**
-/

namespace AieHlc.Lower

open List AieHlc.Word

namespace CoreMemAllocator

variable (al : CoreMemAllocator)

/-- A `CoreMemAllocator` as it is constructed. -/
def new (baseAddr totalSize : UInt32) : CoreMemAllocator :=
  ⟨baseAddr.toNat, totalSize.toNat, baseAddr.toNat, []⟩

/-- `reset`. -/
def reset : CoreMemAllocator := { al with nextFree := al.baseAddr, allocations := [] }

/-- `getSize`. -/
def getSize (name : String) : ℕ :=
  match al.slot? name with
  | some s => s.size
  | none => 0

end CoreMemAllocator

/-- A call of the allocator; the alignment is a power of two. -/
inductive MemCall where
  | allocate (name : String) (size : UInt32) (shift : Fin 32)
  | reset
  deriving DecidableEq

/-- The allocator, and the ranges it has returned since the last reset, each of the size
that was asked for. -/
structure MemState where
  al : CoreMemAllocator
  returned : List CoreMemSlot

/-- A call; a range that is returned is noted. -/
def MemState.step (s : MemState) : MemCall → MemState
  | .allocate name size shift =>
    let r := s.al.allocate name size.toNat (2 ^ shift.val)
    match r.1 with
    | some a => ⟨r.2, s.returned ++ [⟨name, a, size.toNat⟩]⟩
    | none => ⟨r.2, s.returned⟩
  | .reset => ⟨s.al.reset, []⟩

/-- Every call of a run has a property, in the state it is made in. -/
def Along (P : MemState → MemCall → Prop) : MemState → List MemCall → Prop
  | _, [] => True
  | s, c :: cs => P s c ∧ Along P (s.step c) cs

/-- No address is in both ranges. -/
def NoOverlap (a n b m : ℕ) : Prop := ∀ x, ¬((a ≤ x ∧ x < a + n) ∧ b ≤ x ∧ x < b + m)

/-- **What a call returns**: an address with as many bytes reserved as were asked for,
aligned, inside the memory, apart from what was returned for other names, and the same as
was returned for this name. -/
structure Returns (s : MemState) (name : String) (size alignment a : ℕ) : Prop where
  reserved : size ≤ (s.al.allocate name size alignment).2.getSize name
  aligned : alignment ∣ a
  inside : s.al.baseAddr ≤ a ∧ a + size ≤ s.al.baseAddr + s.al.totalSize
  apart : ∀ r ∈ s.returned, r.symbolName ≠ name → NoOverlap a size r.address r.size
  same : ∀ r ∈ s.returned, r.symbolName = name → r.address = a

/-- A successful call returns what it should. -/
def CallSound (s : MemState) : MemCall → Prop
  | .allocate name size shift => ∀ a, (s.al.allocate name size.toNat (2 ^ shift.val)).1 = some a →
      Returns s name size.toNat (2 ^ shift.val) a
  | .reset => True

/-- The least multiple of `alignment` from `n` on. -/
def roundUp (n alignment : ℕ) : ℕ := (n + alignment - 1) / alignment * alignment

/-- Neither rounding `nextFree` up nor adding the size goes past 32 bits. -/
def NoWrap (al : CoreMemAllocator) (size alignment : ℕ) : Prop :=
  al.nextFree + alignment - 1 < 2 ^ 32 ∧ roundUp al.nextFree alignment + size < 2 ^ 32

instance (al : CoreMemAllocator) (size alignment : ℕ) : Decidable (NoWrap al size alignment) :=
  inferInstanceAs (Decidable (_ ∧ _))

/-- A call that fits: of a name that has a slot, no more bytes than the slot has and an
alignment that its address has; for a new name, no sum that wraps. -/
def CallFits (s : MemState) : MemCall → Prop
  | .allocate name size shift =>
    (∀ t ∈ s.al.slot? name, size.toNat ≤ t.size ∧ 2 ^ shift.val ∣ t.address) ∧
      (s.al.slot? name = none → NoWrap s.al size.toNat (2 ^ shift.val))
  | .reset => True

/-! ### One call -/

namespace CoreMemAllocator

variable (al : CoreMemAllocator) {name : String} {size k : ℕ}

theorem alignUp_eq (hk : k < 32) : al.alignUp (2 ^ k) = u32 (al.nextFree + 2 ^ k - 1) / 2 ^ k * 2 ^ k := by
  have hpos : 0 < 2 ^ k := Nat.two_pow_pos k
  have hmask : 2 ^ 32 - 1 - (2 ^ k - 1) = 2 ^ 32 - 2 ^ k := by omega
  rw [alignUp, hmask]
  exact and_high_mask (Nat.mod_lt _ (by decide)) hk.le

theorem dvd_alignUp (hk : k < 32) : 2 ^ k ∣ al.alignUp (2 ^ k) := by
  rw [alignUp_eq al hk]
  exact Nat.dvd_mul_left _ _

/-- Where no sum wraps, a new slot is behind `nextFree_` and ends within 32 bits. -/
theorem alignUp_of_noWrap (hk : k < 32) (h : NoWrap al size (2 ^ k)) :
    al.nextFree ≤ al.alignUp (2 ^ k) ∧ u32 (al.alignUp (2 ^ k) + size) = al.alignUp (2 ^ k) + size := by
  have hround : al.alignUp (2 ^ k) = roundUp al.nextFree (2 ^ k) := by
    rw [alignUp_eq al hk, u32_eq h.1]
    rfl
  rw [hround]
  refine ⟨?_, u32_eq h.2⟩
  have hpos : 0 < 2 ^ k := Nat.two_pow_pos k
  have hdiv := Nat.div_add_mod' (al.nextFree + 2 ^ k - 1) (2 ^ k)
  have hmod := Nat.mod_lt (al.nextFree + 2 ^ k - 1) hpos
  unfold roundUp
  omega

theorem slot?_some {t : CoreMemSlot} (h : al.slot? name = some t) :
    t ∈ al.allocations ∧ t.symbolName = name := by
  have hname := find?_some h
  exact ⟨mem_of_find?_eq_some h, of_decide_eq_true hname⟩

theorem slot?_none (h : al.slot? name = none) : ∀ t ∈ al.allocations, t.symbolName ≠ name := by
  intro t ht heq
  exact find?_eq_none.1 h t ht (decide_eq_true heq)

/-- **A call** returns the slot of the name, places a new one, or fails. -/
theorem allocate_cases (name : String) (size alignment : ℕ) :
    (∃ t, al.slot? name = some t ∧ al.allocate name size alignment = (some t.address, al)) ∨
      (al.slot? name = none ∧ al.allocate name size alignment = (none, al)) ∨
      (al.slot? name = none ∧ al.Fits size alignment ∧
        al.allocate name size alignment = (some (al.alignUp alignment), al.place name size alignment)) := by
  unfold allocate
  cases hslot : al.slot? name with
  | some t => exact .inl ⟨t, rfl, rfl⟩
  | none =>
    right
    dsimp only
    split
    case isTrue hfit => exact .inr ⟨rfl, hfit, rfl⟩
    case isFalse => exact .inl ⟨rfl, rfl⟩

end CoreMemAllocator

/-- **What calls that fit keep**: slots inside the memory and before `nextFree_`, apart from
each other and one for each name, and every range returned is in the slot of its name. -/
structure MemState.Inv (s : MemState) : Prop where
  base_le : s.al.baseAddr ≤ s.al.nextFree
  free_le : s.al.nextFree ≤ s.al.baseAddr + s.al.totalSize
  names : (s.al.allocations.map CoreMemSlot.symbolName).Nodup
  inside : ∀ t ∈ s.al.allocations, s.al.baseAddr ≤ t.address ∧ t.address + t.size ≤ s.al.nextFree
  apart : ∀ t ∈ s.al.allocations, ∀ u ∈ s.al.allocations, t.symbolName ≠ u.symbolName →
    NoOverlap t.address t.size u.address u.size
  kept : ∀ r ∈ s.returned, ∃ t ∈ s.al.allocations,
    t.symbolName = r.symbolName ∧ t.address = r.address ∧ r.size ≤ t.size

section Calls

variable {s : MemState} {name : String} {size k : ℕ}

theorem NoOverlap.symm {a n b m : ℕ} (h : NoOverlap a n b m) : NoOverlap b m a n :=
  fun x hx => h x ⟨hx.2, hx.1⟩

theorem NoOverlap.mono {a n n' b m m' : ℕ} (h : NoOverlap a n b m) (hn : n' ≤ n) (hm : m' ≤ m) :
    NoOverlap a n' b m' := by
  intro x hx
  exact h x ⟨⟨hx.1.1, by omega⟩, hx.2.1, by omega⟩

/-- A slot that is asked for again, within its size and alignment. -/
theorem returns_slot (hs : s.Inv) {t : CoreMemSlot} (hslot : s.al.slot? name = some t) (hsize : size ≤ t.size)
    {alignment : ℕ} (halign : alignment ∣ t.address) : Returns s name size alignment t.address := by
  obtain ⟨ht, hname⟩ := s.al.slot?_some hslot
  have hres : (s.al.allocate name size alignment).2.getSize name = t.size := by
    simp only [CoreMemAllocator.getSize, CoreMemAllocator.slot?_allocate, hslot]
  obtain ⟨hbase, hend⟩ := hs.inside t ht
  have hfree := hs.free_le
  refine ⟨hres ▸ hsize, halign, ⟨hbase, by omega⟩, ?_, ?_⟩
  · intro r hr hne
    obtain ⟨u, hu, huname, huaddr, husize⟩ := hs.kept r hr
    have hdiff : t.symbolName ≠ u.symbolName := by
      rw [hname, huname]
      exact hne.symm
    exact huaddr ▸ (hs.apart t ht u hu hdiff).mono hsize husize
  · intro r hr heq
    obtain ⟨u, hu, huname, huaddr, _⟩ := hs.kept r hr
    have hut : u = t := inj_on_of_nodup_map hs.names hu ht (huname.trans (heq.trans hname.symm))
    rw [← huaddr, hut]

/-- A new slot is inside the memory, and behind every range returned before. -/
theorem returns_new (hs : s.Inv) (hk : k < 32) (hslot : s.al.slot? name = none)
    (hfit : s.al.Fits size (2 ^ k))
    (hw : NoWrap s.al size (2 ^ k)) : Returns s name size (2 ^ k) (s.al.alignUp (2 ^ k)) := by
  obtain ⟨hle, hstop⟩ := s.al.alignUp_of_noWrap hk hw
  have hbase := hs.base_le
  have hend : s.al.alignUp (2 ^ k) + size ≤ s.al.baseAddr + s.al.totalSize :=
    hstop.symm.trans_le (hfit.trans (Nat.mod_le _ _))
  refine ⟨?_, s.al.dvd_alignUp hk, ⟨by omega, hend⟩, ?_, ?_⟩
  · simp only [CoreMemAllocator.getSize, CoreMemAllocator.slot?_allocate, hslot, if_pos hfit, le_refl]
  · intro r hr _ x hx
    obtain ⟨u, hu, _, huaddr, husize⟩ := hs.kept r hr
    have hin := (hs.inside u hu).2
    omega
  · intro r hr heq
    obtain ⟨u, hu, huname, _⟩ := hs.kept r hr
    exact absurd (huname.trans heq) (s.al.slot?_none hslot u hu)

/-- **One call** that fits is sound. -/
theorem callSound_of_fits (hs : s.Inv) (c : MemCall) (h : CallFits s c) : CallSound s c := by
  cases c with
  | reset => trivial
  | allocate name size shift =>
    intro a ha
    rcases s.al.allocate_cases name size.toNat (2 ^ shift.val) with
      ⟨t, hslot, hrun⟩ | ⟨hslot, hrun⟩ | ⟨hslot, hfit, hrun⟩
    · obtain rfl : t.address = a := by simpa [hrun] using ha
      obtain ⟨hsize, halign⟩ := h.1 t hslot
      exact returns_slot hs hslot hsize halign
    · simp [hrun] at ha
    · obtain rfl : s.al.alignUp (2 ^ shift.val) = a := by simpa [hrun] using ha
      exact returns_new hs shift.isLt hslot hfit (h.2 hslot)

theorem MemState.Inv.place (hs : s.Inv) (hk : k < 32) (hslot : s.al.slot? name = none)
    (hfit : s.al.Fits size (2 ^ k)) (hw : NoWrap s.al size (2 ^ k)) :
    MemState.Inv ⟨s.al.place name size (2 ^ k), s.returned ++ [⟨name, s.al.alignUp (2 ^ k), size⟩]⟩ := by
  obtain ⟨hle, hstop⟩ := s.al.alignUp_of_noWrap hk hw
  have hbase := hs.base_le
  have hnext : (s.al.place name size (2 ^ k)).nextFree = s.al.alignUp (2 ^ k) + size := hstop
  -- the new slot is apart from the old ones
  have hapart : ∀ t ∈ s.al.allocations, NoOverlap t.address t.size (s.al.alignUp (2 ^ k)) size := by
    intro t ht x hx
    have hin := (hs.inside t ht).2
    omega
  have hmem : ∀ {t : CoreMemSlot}, t ∈ (s.al.place name size (2 ^ k)).allocations →
      t ∈ s.al.allocations ∨ t = ⟨name, s.al.alignUp (2 ^ k), size⟩ := by
    intro t ht
    exact (mem_append.1 ht).imp_right mem_singleton.1
  refine ⟨?_, hfit.trans (Nat.mod_le _ _), ?_, ?_, ?_, ?_⟩
  · show s.al.baseAddr ≤ (s.al.place name size (2 ^ k)).nextFree
    omega
  · show ((s.al.allocations ++ [_]).map CoreMemSlot.symbolName).Nodup
    rw [map_append]
    refine List.Nodup.append hs.names (nodup_singleton _) ?_
    intro x hx hx'
    obtain ⟨t, ht, rfl⟩ := mem_map.1 hx
    exact s.al.slot?_none hslot t ht (mem_singleton.1 hx')
  · intro t ht
    show s.al.baseAddr ≤ t.address ∧ t.address + t.size ≤ (s.al.place name size (2 ^ k)).nextFree
    rcases hmem ht with hold | rfl
    · obtain ⟨hlow, hhigh⟩ := hs.inside t hold
      omega
    · exact ⟨hbase.trans hle, hnext.ge⟩
  · intro t ht u hu hne
    rcases hmem ht with htold | rfl <;> rcases hmem hu with huold | rfl
    · exact hs.apart t htold u huold hne
    · exact hapart t htold
    · exact (hapart u huold).symm
    · exact absurd rfl hne
  · intro r hr
    rcases mem_append.1 hr with hold | hnew'
    · obtain ⟨t, ht, hfacts⟩ := hs.kept r hold
      exact ⟨t, mem_append_left _ ht, hfacts⟩
    · obtain rfl := mem_singleton.1 hnew'
      exact ⟨_, mem_append_right _ (mem_singleton.2 rfl), rfl, rfl, le_rfl⟩

theorem MemState.Inv.again (hs : s.Inv) {t : CoreMemSlot} (ht : t ∈ s.al.allocations)
    (hname : t.symbolName = name)
    (hsize : size ≤ t.size) : MemState.Inv ⟨s.al, s.returned ++ [⟨name, t.address, size⟩]⟩ := by
  refine { hs with kept := fun r hr => ?_ }
  rcases mem_append.1 hr with hold | hnew
  · exact hs.kept r hold
  · obtain rfl := mem_singleton.1 hnew
    exact ⟨t, ht, hname, rfl, hsize⟩

theorem MemState.Inv.empty {al : CoreMemAllocator} (hfree : al.nextFree = al.baseAddr)
    (hnil : al.allocations = []) :
    MemState.Inv ⟨al, []⟩ := by
  refine ⟨hfree.ge, hfree.le.trans (Nat.le_add_right _ _), ?_, ?_, ?_, nofun⟩
  · show (al.allocations.map CoreMemSlot.symbolName).Nodup
    rw [hnil]
    exact nodup_nil
  all_goals
    show ∀ t ∈ al.allocations, _
    rw [hnil]
    nofun

/-- **One call** that fits keeps the invariant. -/
theorem MemState.Inv.step (hs : s.Inv) (c : MemCall) (h : CallFits s c) : (s.step c).Inv := by
  cases c with
  | reset => exact .empty rfl rfl
  | allocate name size shift =>
    unfold MemState.step
    dsimp only
    rcases s.al.allocate_cases name size.toNat (2 ^ shift.val) with
      ⟨t, hslot, hrun⟩ | ⟨hslot, hrun⟩ | ⟨hslot, hfit, hrun⟩
    · rw [hrun]
      obtain ⟨ht, hname⟩ := s.al.slot?_some hslot
      exact hs.again ht hname (h.1 t hslot).1
    · rw [hrun]
      exact hs
    · rw [hrun]
      exact hs.place shift.isLt hslot hfit (h.2 hslot)

end Calls

/-- A run of calls that fit is sound from every state with the invariant. -/
theorem along_sound : ∀ (cs : List MemCall) {s : MemState}, s.Inv → Along CallFits s cs →
    Along CallSound s cs := by
  intro cs
  induction cs with
  | nil => exact fun _ _ => trivial
  | cons c cs ih =>
    intro s hs h
    exact ⟨callSound_of_fits hs c h.1, ih (hs.step c h.1) h.2⟩

/-- **Core memory.** For every memory and every sequence of calls and resets in which no call asks
for more of a name's slot than was reserved at first, or for an alignment it does not have, and
no 32-bit sum wraps, all calls return what they should. -/
theorem memory_sound (baseAddr totalSize : UInt32) (cs : List MemCall)
    (h : Along CallFits ⟨.new baseAddr totalSize, []⟩ cs) :
    Along CallSound ⟨.new baseAddr totalSize, []⟩ cs :=
  along_sound cs (.empty rfl rfl) h

/-- Ping and pong, and half of ping again. -/
theorem memory_sound_smaller : Along CallSound ⟨.new 0x78000 0x8000, []⟩
    [.allocate "buf_in_ping_0" 32 5, .allocate "buf_in_pong_0" 32 5, .allocate "buf_in_ping_0" 16 4] := by
  apply memory_sound
  refine ⟨⟨?_, ?_⟩, ⟨?_, ?_⟩, ⟨?_, ?_⟩, trivial⟩ <;> decide +kernel

/-- Two buffers, and the first of them again with twice its size: the range that is returned
covers the second buffer. -/
theorem not_sound_larger : ¬Along CallSound ⟨.new 0x78000 0x8000, []⟩
    [.allocate "buf_in_ping_0" 32 5, .allocate "buf_in_pong_0" 32 5, .allocate "buf_in_ping_0" 64 5] := by
  rintro ⟨_, _, hagain, _⟩
  have hret := hagain 0x78000 (by decide +kernel)
  exact hret.apart ⟨"buf_in_pong_0", 0x78020, 32⟩ (by decide +kernel) (by decide) 0x78020 (by decide)

end AieHlc.Lower
