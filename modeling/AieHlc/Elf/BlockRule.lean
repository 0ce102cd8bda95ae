import AieHlc.Elf.Body

/-!
# Writes and 16-byte blocks

An access to a tile should stay in one 16-byte block. The read packetizer and the segment encoder
cut their accesses at the borders of the blocks. The write packetizers and the encoder of kernel
images cut them every four words from the start address on, so that they keep to the blocks only for
some start addresses.

* `InBlocks`: the words a call has left read back as accesses, and none of these spans two blocks.
* `pktize_inBlocks_iff`, `body_inBlocks_iff`: when this holds of a packetizer's words and of a body.
* `block_rule_iff`: **when writes keep to blocks**, for the three encoders.
-/

namespace AieHlc.Elf

open List AieHlc.Word AieHlc.Packet

/-- The first `len` words of a buffer read back as accesses, and none of them but perhaps the first
`skip` spans two blocks. -/
def InBlocks (skip len : ℕ) (p : ℕ → ℕ) : Prop :=
  ∃ accs, walk ((List.range len).map p) = some accs ∧ ∀ a ∈ accs.drop skip, a.InBlock

/-- The first access, of up to four of `n` words, ends in the block it starts in. -/
def FirstFits (addr n : ℕ) : Prop := addr % 16 + 4 * min 4 n ≤ 16

instance (addr n : ℕ) : Decidable (FirstFits addr n) := inferInstanceAs (Decidable (_ ≤ _))

section Accesses

variable {h addr n : ℕ} {data : Option (ℕ → ℕ)}

theorem chunkAccess_inBlock {c : ℕ} (hc : c < chunkCount n) :
    (chunkAccess h addr data n c).InBlock ↔ addr % 16 + 4 * min 4 (n - 4 * c) ≤ 16 := by
  obtain ⟨haddr, hbeats, _⟩ := @chunkAccess_fields h addr data n c hc
  rw [chunkCount_iff] at hc
  unfold Access.InBlock
  rw [haddr, hbeats]
  omega

/-- All accesses are in blocks if the first one is: they start at the same place of a block, and
none is longer. -/
theorem plainAccs_inBlock_iff :
    (∀ a ∈ plainAccs h addr data n (chunkCount n), a.InBlock) ↔ FirstFits addr n := by
  unfold FirstFits
  constructor
  · intro hall
    by_cases hn : n = 0
    · rw [hn]
      omega
    · have hfirst : 0 < chunkCount n := chunkCount_iff.2 (by omega)
      exact (chunkAccess_inBlock hfirst).1 (hall _ (mem_map_of_mem (mem_range.2 hfirst)))
  · intro hfit a ha
    obtain ⟨c, hc, rfl⟩ := mem_plainAccs ha
    rw [chunkAccess_inBlock hc]
    omega

/-- A write with return is one word. -/
theorem mkAck_inBlock {ret d : ℕ} (hret : ret < 32) (haddr : addr % 16 ≤ 12) :
    (mkAck h ret (addr % 2 ^ 20) d).InBlock := by
  obtain ⟨ha, hb, _⟩ := @mkAck_fields h ret _ d (Nat.mod_lt addr (by decide)) hret
  unfold Access.InBlock
  rw [ha, hb]
  omega

theorem pktAccs_inBlock_iff {nwords : ℕ} {lastack : Bool} {ret : ℕ} (haddr : addr % 4 = 0) :
    (∀ a ∈ pktAccs h addr data nwords lastack ret, a.InBlock) ↔
    FirstFits addr (plainCount nwords lastack) := by
  rw [← @plainAccs_inBlock_iff h addr _ data, pktAccs, forall_mem_append]
  refine and_iff_left fun a ha => ?_
  split at ha
  · obtain rfl := mem_singleton.1 ha
    exact mkAck_inBlock (Nat.mod_lt _ (by decide)) (by omega)
  · exact absurd ha not_mem_nil

end Accesses

/-- A packetizer's words keep to the blocks exactly when its first access does. -/
theorem pktize_inBlocks_iff {cap sid addr : ℕ} {data : Option (ℕ → ℕ)} {nwords : ℕ} {lastack : Bool} {ret : ℕ}
    {out : ℕ → ℕ} {fuel len : ℕ} {p : ℕ → ℕ} (haddr : addr % 4 = 0) (hfit : ¬LengthWraps cap nwords lastack)
    (hrun : cpePktize cap sid addr data nwords lastack ret out fuel = some (len, p)) (hlen : len ≠ 0) :
    InBlocks 0 len p ↔ FirstFits addr (plainCount nwords lastack) := by
  rw [InBlocks, walk_of_fits hfit hrun hlen, ← @pktAccs_inBlock_iff
    (cpeStreamHdr sid) addr data _ _ ret haddr]
  simp

section Body

variable {cap : ℕ} {d : CpeDev} {col row : ℤ} {elf : Image} {sid : ℕ} {wantReset : Bool}
    {pkt : ℕ → ℕ} {fuel : ℕ}
  {b : Body}

/-- The last word of segments that keep to the blocks is not cut by a border either. -/
theorem lastWord_inBlock (h : ∀ s ∈ loaded d row elf.phdrs, FirstFits s.2 (segCount s.1)) :
    (lastWord d row elf).1 % 16 ≤ 12 := by
  unfold lastWord
  cases hlast : ((loaded d row elf.phdrs).map (segLast elf.byte)).getLast? with
  | none => exact Nat.zero_le _
  | some w =>
    obtain ⟨s, hs, rfl⟩ := mem_map.1 (mem_of_getLast? hlast)
    have hfit := h s hs
    have hpos := owned_filesz (mem_filter.1 hs).1
    unfold FirstFits segCount at hfit
    show u32 (s.2 + 4 * ((s.1.filesz + 3) / 4 - 1)) % 16 ≤ 12
    unfold u32
    omega

/-- The accesses of a body after its reset sequence keep to the blocks exactly when the first access
of every segment does. -/
theorem body_inBlocks_iff (hcap : cap < 2 ^ 32)
    (hrun : rtCpeEncodeBody cap d col row elf sid wantReset pkt fuel = some b)
    (hfit : bodyLen d row elf wantReset < 2 ^ 32) : InBlocks (resetCount d wantReset) b.words b.pkt ↔
      ∀ s ∈ loaded d row elf.phdrs, FirstFits s.2 (segCount s.1) := by
  have hdrop : (bodyAccs d row elf (cpeStreamHdr sid) wantReset ++
      [ackAcc (cpeStreamHdr sid) (lastWord d row elf)]).drop (resetCount d wantReset) =
      (loaded d row elf.phdrs).flatMap (segAccs elf.byte (cpeStreamHdr sid)) ++
        [ackAcc (cpeStreamHdr sid) (lastWord d row elf)] := by
    rw [bodyAccs, append_assoc]
    apply drop_left'
    cases wantReset with
    | false => rfl
    | true => exact length_map ..
  have hsegs : (∀ a ∈ (loaded d row elf.phdrs).flatMap (segAccs elf.byte (cpeStreamHdr sid)), a.InBlock) ↔
      ∀ s ∈ loaded d row elf.phdrs, FirstFits s.2 (segCount s.1) := by
    simp only [forall_mem_flatMap, segAccs, plainAccs_inBlock_iff]
  constructor
  · rintro ⟨accs, hwalk, hall⟩
    obtain rfl := Option.some.inj ((walk_body hcap hrun hfit).symm.trans hwalk)
    rw [hdrop, forall_mem_append] at hall
    exact hsegs.1 hall.1
  · intro hfirst
    refine ⟨_, walk_body hcap hrun hfit, ?_⟩
    rw [hdrop, forall_mem_append]
    exact ⟨hsegs.2 hfirst, forall_mem_singleton.2 (mkAck_inBlock (by decide) (lastWord_inBlock hfirst))⟩

end Body

section Rule

variable {cap cap' addr sid sid' : ℕ} {data : Option (ℕ → ℕ)} {nwords : ℕ} {lastack : Bool}
    {ret : ℕ} {out : ℕ → ℕ}
  {fuel fuel' len len' resp : ℕ} {p p' : ℕ → ℕ} {d : CpeDev} {col row : ℤ} {elf : Image} {wantReset : Bool}
  {pkt : ℕ → ℕ} {b : Body}

/-- **When writes keep to blocks.** The words returned by the two packetizers do exactly when the
first access of the block of words does, and the segments of an encoded body exactly when the first
access of each segment does. -/
theorem block_rule_iff (haddr : addr % 4 = 0) (hfit : ¬LengthWraps cap nwords lastack)
    (hwrite : runtimeCtrlPktizeWrite cap sid addr data nwords lastack ret out fuel = some ((len, p), resp))
    (hlen : len ≠ 0) (hcpe : cpePktize cap sid addr data nwords lastack ret out fuel' = some (len', p'))
    (hlen' : len' ≠ 0) (hcap : cap' < 2 ^ 32)
    (hbody : rtCpeEncodeBody cap' d col row elf sid' wantReset pkt fuel = some b)
    (hfits : bodyLen d row elf wantReset < 2 ^ 32) :
    (InBlocks 0 len p ↔ FirstFits addr (plainCount nwords lastack)) ∧
      (InBlocks 0 len' p' ↔ FirstFits addr (plainCount nwords lastack)) ∧
      (InBlocks (resetCount d wantReset) b.words b.pkt ↔
        ∀ s ∈ loaded d row elf.phdrs, FirstFits s.2 (segCount s.1)) := by
  have hsame : cpePktize cap sid addr data nwords lastack ret out fuel = some (len, p) := by
    rw [← runtimeCtrlPktizeWrite_eq, hwrite, Option.map_some]
  exact ⟨pktize_inBlocks_iff haddr hfit hsame hlen, pktize_inBlocks_iff haddr hfit hcpe hlen',
    body_inBlocks_iff hcap hbody hfits⟩

end Rule

/-! ## Two images -/

def fourWordImage (paddr : ℕ) : Image := ⟨[⟨PT_LOAD, 0, paddr, 16, by decide⟩], fun _ => 0, by simp⟩

theorem fourWords_returned (addr : ℕ) : ∃ p,
    cpePktize 6 0 addr none 4 false 0 (fun _ => 0) 2 = some (6, p) ∧
      runtimeCtrlPktizeWrite 6 0 addr none 4 false 0 (fun _ => 0) 2 = some ((6, p), 0) := by
  refine ⟨_, rfl, ?_⟩
  rw [runtimeCtrlPktizeWrite, funext runtimePktParity_eq]
  rfl

theorem fourWords_fit : ¬LengthWraps 6 4 false := fun h => absurd h.2.1 (by decide)

theorem block_rule_iff_aligned : ∃ p b,
    cpePktize 6 0 0x1000 none 4 false 0 (fun _ => 0) 2 = some (6, p) ∧ InBlocks 0 6 p ∧
      rtCpeEncodeBody 9 smallDev 0 0 (fourWordImage 0x10) 4 false (fun _ => 0) 2 = some b ∧
      InBlocks 0 b.words b.pkt := by
  obtain ⟨p, hcpe, hwrite⟩ := fourWords_returned 0x1000
  obtain ⟨b, hb⟩ : ∃ b, rtCpeEncodeBody 9 smallDev 0 0 (fourWordImage 0x10) 4 false (fun _ => 0) 2 = some b :=
    Option.isSome_iff_exists.1 (by decide +kernel)
  obtain ⟨hrt, _, hbody⟩ := block_rule_iff (by decide) fourWords_fit hwrite (by decide) hcpe (by decide)
    (by decide) hb (by decide)
  exact ⟨p, b, hcpe, hrt.2 (by decide), hb, hbody.2 (by decide)⟩

/-- Four words from the second word of a block on span two blocks. -/
theorem not_block_rule_unaligned : ∃ p b,
    cpePktize 6 0 4 none 4 false 0 (fun _ => 0) 2 = some (6, p) ∧
      runtimeCtrlPktizeWrite 6 0 4 none 4 false 0 (fun _ => 0) 2 = some ((6, p), 0) ∧ ¬InBlocks 0 6 p ∧
      rtCpeEncodeBody 9 smallDev 0 0 (fourWordImage 4) 4 false (fun _ => 0) 2 = some b ∧
      ¬InBlocks 0 b.words b.pkt := by
  obtain ⟨p, hcpe, hwrite⟩ := fourWords_returned 4
  obtain ⟨b, hb⟩ : ∃ b, rtCpeEncodeBody 9 smallDev 0 0 (fourWordImage 4) 4 false (fun _ => 0) 2 = some b :=
    Option.isSome_iff_exists.1 (by decide +kernel)
  refine ⟨p, b, hcpe, hwrite, ?_, hb, ?_⟩
  · rw [pktize_inBlocks_iff (by decide) fourWords_fit hcpe (by decide)]
    decide
  · intro h
    exact absurd ((body_inBlocks_iff (by decide) hb (by decide)).1 h) (by decide)

end AieHlc.Elf
