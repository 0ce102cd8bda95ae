import AieHlc.Elf.Body

/-!
# Where the words of a segment go

`rt_cpe_target` looks at the first address of a segment only: below `prog_mem_size` the
segment is put into the program memory window, otherwise into the data memory of the tile
it names. The chunk loop of `cpe_seg` then follows the length of the segment wherever it
leads.

* `Windows`: the program memory and the data memory of a device, as windows of the
  2^20 bytes of a tile.
* `SegContained`: every write of a segment stays in the window its start is in.
* `SegFits`: the segment ends before its window does.
* **`segments_contained_iff`**: the segments of an encoded body are contained exactly when
  they all fit. The encoder never looks.
-/

namespace AieHlc.Elf

open List AieHlc.Word AieHlc.Packet

/-- The windows of a device: the size of the data memory is a power of two, and both
memories lie below 2^20 without overlapping. -/
structure Windows (d : CpeDev) : Prop where
  pow : ∃ n, d.dataMemSize = 2 ^ n
  data_le : d.dataMemSize ≤ 2 ^ 20
  prog_le : d.progMemHostOff + d.progMemSize ≤ 2 ^ 20
  disjoint : d.dataMemSize ≤ d.progMemHostOff ∨ d.progMemSize = 0

/-- The word at `w` is in the window of a segment that starts at `paddr`. -/
def InWindow (d : CpeDev) (paddr w : ℕ) : Prop :=
  if paddr < d.progMemSize then d.progMemHostOff ≤ w ∧ w + 4 ≤ d.progMemHostOff + d.progMemSize
  else w + 4 ≤ d.dataMemSize

/-- The writes of a segment stay in its window, and its addresses do not wrap. -/
structure SegContained (d : CpeDev) (byte : ℕ → ℕ) (s : Phdr × ℕ) : Prop where
  window : ∀ w ∈ segWrites byte s, InWindow d s.1.paddr w.1
  noWrap : ∀ k < segCount s.1, s.2 + 4 * k < 2 ^ 20

/-- The segment, in whole words, ends before its window does. -/
def SegFits (d : CpeDev) (ph : Phdr) : Prop :=
  if ph.paddr < d.progMemSize then ph.paddr + 4 * segCount ph ≤ d.progMemSize
  else ph.paddr % d.dataMemSize + 4 * segCount ph ≤ d.dataMemSize

instance (d : CpeDev) (ph : Phdr) : Decidable (SegFits d ph) := by
  unfold SegFits
  infer_instance

section Window

variable {d : CpeDev} {row : ℤ} {elf : Image} {ph : Phdr} {a : ℕ} {s : Phdr × ℕ}

theorem Windows.mask (hd : Windows d) (paddr : ℕ) :
    paddr &&& u32sub d.dataMemSize 1 = paddr % d.dataMemSize := by
  obtain ⟨n, hn⟩ := hd.pow
  have hle := hd.data_le
  have hsub : u32sub d.dataMemSize 1 = 2 ^ n - 1 := by
    have hpos : 0 < 2 ^ n := Nat.two_pow_pos n
    unfold u32sub u32
    omega
  rw [hsub, hn, Nat.and_two_pow_sub_one_eq_mod]

theorem Windows.ownAddr_eq (hd : Windows d) (ha : ownAddr d row ph.paddr = some a) :
    a = if ph.paddr < d.progMemSize then d.progMemHostOff + ph.paddr else ph.paddr % d.dataMemSize := by
  have hprog := hd.prog_le
  unfold ownAddr at ha
  by_cases hpm : ph.paddr < d.progMemSize
  · rw [if_pos hpm] at ha ⊢
    rw [← Option.some.inj ha]
    unfold u32
    omega
  · rw [if_neg hpm] at ha ⊢
    by_cases hown : ownMem d row ph.paddr
    · rw [if_pos hown] at ha
      rw [← Option.some.inj ha, hd.mask]
    · rw [if_neg hown] at ha
      exact nomatch ha

theorem mem_owned (hs : s ∈ owned d row elf.phdrs) : ownAddr d row s.1.paddr = some s.2 ∧ s.1.filesz ≠ 0 := by
  obtain ⟨ph, hph, hmap⟩ := mem_filterMap.1 hs
  obtain ⟨a, ha, rfl⟩ := Option.map_eq_some_iff.1 hmap
  have hload := (mem_filter.1 hph).2
  unfold Phdr.loadable at hload
  exact ⟨ha, (of_decide_eq_true hload).2⟩

theorem Windows.addr_lt (hd : Windows d) (hs : s ∈ owned d row elf.phdrs) : s.2 < 2 ^ 20 := by
  have ha := hd.ownAddr_eq (mem_owned hs).1
  have hprog := hd.prog_le
  have hdata := hd.data_le
  obtain ⟨n, hn⟩ := hd.pow
  have hpos : 0 < d.dataMemSize := by
    rw [hn]
    exact Nat.two_pow_pos n
  have hmod := Nat.mod_lt s.1.paddr hpos
  by_cases hpm : s.1.paddr < d.progMemSize
  · rw [if_pos hpm] at ha
    omega
  · rw [if_neg hpm] at ha
    omega

theorem Windows.loaded_eq (hd : Windows d) : loaded d row elf.phdrs = owned d row elf.phdrs := by
  apply filter_eq_self.2
  intro s hs
  have hlt := hd.addr_lt hs
  apply decide_eq_true
  unfold RT_CPE_SKIP_ADDR
  omega

/-- A segment that fits ends at most at 2^20, and every word of it is in its window. -/
theorem SegFits.contained (hd : Windows d) (hs : s ∈ owned d row elf.phdrs) (hfit : SegFits d s.1)
    (byte : ℕ → ℕ) : SegContained d byte s := by
  have ha := hd.ownAddr_eq (mem_owned hs).1
  have hprog := hd.prog_le
  have hdata := hd.data_le
  have hend : ∀ k < segCount s.1, s.2 + 4 * k < 2 ^ 20 ∧ InWindow d s.1.paddr (s.2 + 4 * k) := by
    intro k hk
    unfold InWindow
    unfold SegFits at hfit
    by_cases hpm : s.1.paddr < d.progMemSize
    · rw [if_pos hpm] at ha hfit ⊢
      omega
    · rw [if_neg hpm] at ha hfit ⊢
      omega
  refine ⟨?_, fun k hk => (hend k hk).1⟩
  intro w hw
  obtain ⟨k, hk, rfl⟩ := mem_map.1 hw
  obtain ⟨hlt, hin⟩ := hend k (mem_range.1 hk)
  simpa only [Nat.mod_eq_of_lt hlt] using hin

/-- The last word of a contained segment is in its window, so the segment fits. -/
theorem SegContained.fits {byte : ℕ → ℕ} (hd : Windows d) (hs : s ∈ owned d row elf.phdrs)
    (hc : SegContained d byte s) : SegFits d s.1 := by
  obtain ⟨hown, hne⟩ := mem_owned hs
  have ha := hd.ownAddr_eq hown
  have hpos : 0 < segCount s.1 := by
    unfold segCount
    omega
  -- the last word says it all: it does not wrap, so its address is where the segment ends
  have hlt := hc.noWrap (segCount s.1 - 1) (by omega)
  have hin := hc.window _ (mem_map.2 ⟨segCount s.1 - 1, mem_range.2 (by omega), rfl⟩)
  simp only [Nat.mod_eq_of_lt hlt] at hin
  unfold InWindow at hin
  unfold SegFits
  by_cases hpm : s.1.paddr < d.progMemSize
  · rw [if_pos hpm] at ha hin ⊢
    omega
  · rw [if_neg hpm] at ha hin ⊢
    omega

end Window

section Body

variable {cap : ℕ} {d : CpeDev} {col row : ℤ} {elf : Image} {sid : ℕ} {wantReset : Bool} {pkt : ℕ → ℕ}
  {fuel : ℕ} {b : Body}

/-- The writes of an encoded body are the reset sequence, the words of the segments, and
the last word once more as the acknowledged write; and every segment is contained. -/
structure SegmentsContained (d : CpeDev) (row : ℤ) (elf : Image) (wantReset : Bool) (b : Body) : Prop where
  body : bodyLen d row elf wantReset < 2 ^ 32 → ∃ accs, walk ((List.range b.words).map b.pkt) = some accs ∧
    accs.flatMap Access.writes =
      (if wantReset then (resetWrites d).map fun w => (w.1 % 2 ^ 20, w.2) else []) ++
      (loaded d row elf.phdrs).flatMap (segWrites elf.byte) ++
        [((lastWord d row elf).1 % 2 ^ 20, (lastWord d row elf).2)]
  segs : ∀ s ∈ loaded d row elf.phdrs, SegContained d elf.byte s

theorem body_readsBack (hcap : cap < 2 ^ 32)
    (hrun : rtCpeEncodeBody cap d col row elf sid wantReset pkt fuel = some b)
    (hfit : bodyLen d row elf wantReset < 2 ^ 32) :
    ∃ accs, walk ((List.range b.words).map b.pkt) = some accs ∧
      accs.flatMap Access.writes =
        (if wantReset then (resetWrites d).map fun w => (w.1 % 2 ^ 20, w.2) else []) ++
        (loaded d row elf.phdrs).flatMap (segWrites elf.byte) ++
          [((lastWord d row elf).1 % 2 ^ 20, (lastWord d row elf).2)] := by
  refine ⟨_, walk_body hcap hrun hfit, ?_⟩
  rw [flatMap_append, flatMap_singleton, ackAcc_fields.2.1, bodyAccs_writes]

/-- **The segments of an encoded body are contained exactly when they all fit.** -/
theorem segments_contained_iff (hd : Windows d) (hcap : cap < 2 ^ 32)
    (hrun : rtCpeEncodeBody cap d col row elf sid wantReset pkt fuel = some b) :
    SegmentsContained d row elf wantReset b ↔ ∀ s ∈ owned d row elf.phdrs, SegFits d s.1 := by
  constructor
  · intro hc s hs
    have hl : s ∈ loaded d row elf.phdrs := by rwa [hd.loaded_eq]
    exact (hc.segs s hl).fits hd hs
  · intro hfit
    refine ⟨body_readsBack hcap hrun, ?_⟩
    intro s hl
    have hs : s ∈ owned d row elf.phdrs := by rwa [← hd.loaded_eq]
    exact (hfit s hs).contained hd hs elf.byte

end Body

/-! ### A segment that runs out of the program memory -/

theorem smallDev_windows : Windows smallDev :=
  ⟨⟨16, by decide⟩, by decide, by decide, .inl (by decide)⟩

/-- A segment of two words at `paddr`. -/
def wordPair (paddr : ℕ) : Phdr := ⟨PT_LOAD, 0, paddr, 8, by decide⟩

def wordPairImage (paddr : ℕ) : Image := ⟨[wordPair paddr], fun i => i, by simp⟩

theorem encodes_wordPair (paddr : ℕ) (hp : paddr = 0 ∨ paddr = 0x3FFC) : ∃ b,
    rtCpeEncodeBody 64 smallDev 0 0 (wordPairImage paddr) 4 true (fun _ => 0) 8 = some b := by
  apply Option.isSome_iff_exists.1
  rcases hp with rfl | rfl
  · decide
  · decide

/-- Two words at the start of the program memory. -/
theorem segments_contained_iff_start : ∃ b,
    rtCpeEncodeBody 64 smallDev 0 0 (wordPairImage 0) 4 true (fun _ => 0) 8 = some b ∧
      SegmentsContained smallDev 0 (wordPairImage 0) true b := by
  obtain ⟨b, hb⟩ := encodes_wordPair 0 (.inl rfl)
  refine ⟨b, hb, (segments_contained_iff smallDev_windows (by decide) hb).2 ?_⟩
  decide

/-- Two words at the last word of the program memory: the second is written behind its
window, to an address the device description gives to no memory. -/
theorem not_contained_overrun : ∃ b,
    rtCpeEncodeBody 64 smallDev 0 0 (wordPairImage 0x3FFC) 4 true (fun _ => 0) 8 = some b ∧
      ¬SegmentsContained smallDev 0 (wordPairImage 0x3FFC) true b := by
  obtain ⟨b, hb⟩ := encodes_wordPair 0x3FFC (.inr rfl)
  refine ⟨b, hb, ?_⟩
  intro hc
  have hmem : (wordPair 0x3FFC, 0x23FFC) ∈ owned smallDev 0 (wordPairImage 0x3FFC).phdrs := mem_cons_self
  have hfit := (hc.segs _ (by rwa [smallDev_windows.loaded_eq])).fits smallDev_windows hmem
  exact absurd hfit (by decide)

end AieHlc.Elf
