import AieHlc.Elf.Body

/-!
# The runtime's ELF encoders

Model of `rt_ctrl_elf_fill` (`aie_runtime.c`), which fills either slots of eight words,
one for each access, or a packed stream, without a pending return configuration.
Slot offsets are 32-bit: slot `2^29` is slot 0 again.

* `rtCtrlElfFill`: the encoder in both modes.
* `fillPacked_holds`: the packed stream is the body without its final write.
* `Slots`, `fillSlots_spec`: the slots hold the accesses of the same body.
* `encoders_agree_iff`: **the three encoders agree** exactly when the accesses are at
  most `2^29`.
-/

namespace AieHlc.Elf

open Option List AieHlc.Word AieHlc.Packet

def ACR_ID_BCAST : ℕ := 0x10

def RT_CTRL_ELF_PKT_STRIDE : ℕ := 8

/-! ### Targets -/

section Target

variable (d : CpeDev) (col row : ℕ) (paddr : ℕ)

/-- The target tile, in the 8-bit coordinates of `XAie_LocType`. -/
def targetLoc : Option (ℕ × ℕ) :=
  if memDir d paddr = 4 then some (col, (row + 255) % 256)
  else if memDir d paddr = 5 ∧ rowParity d row then some ((col + 255) % 256, row)
  else if memDir d paddr = 6 then some (col, (row + 1) % 256)
  else if memDir d paddr = 7 ∧ ¬rowParity d row then some ((col + 1) % 256, row)
  else if memDir d paddr < 4 ∨ memDir d paddr > 7 then none
  else some (col, row)

/-- `rt_ctrl_elf_target`. -/
def rtCtrlElfTarget : Option ℕ :=
  if paddr < d.progMemSize then some (u32 (d.progMemHostOff + paddr))
  else if OutsideData d paddr then none
  else (targetLoc d col row paddr).map fun t =>
    if t.1 ≠ col ∨ t.2 ≠ row then RT_CPE_SKIP_ADDR else paddr &&& u32sub d.dataMemSize 1

variable {d col row paddr}

/-- Both target functions agree: a step in 8 bits also leaves the tile. -/
theorem rtCtrlElfTarget_eq :
    rtCtrlElfTarget d col row paddr = rtCpeTarget d col row paddr := by
  unfold rtCtrlElfTarget rtCpeTarget
  by_cases hpm : paddr < d.progMemSize
  · rw [if_pos hpm, if_pos hpm]
  rw [if_neg hpm, if_neg hpm]
  by_cases hout : OutsideData d paddr
  · rw [if_pos hout, if_pos hout]
  rw [if_neg hout, if_neg hout]
  unfold targetLoc targetTile
  split_ifs with h4 h5 h6 h7 hdir
  · rw [map_some, map_some, if_pos (.inr (by show (row + 255) % 256 ≠ row; omega)),
      if_pos (.inr (by show (row : ℤ) - 1 ≠ row; omega))]
  · rw [map_some, map_some, if_pos (.inl (by show (col + 255) % 256 ≠ col; omega)),
      if_pos (.inl (by show (col : ℤ) - 1 ≠ col; omega))]
  · rw [map_some, map_some, if_pos (.inr (by show (row + 1) % 256 ≠ row; omega)),
      if_pos (.inr (by show (row : ℤ) + 1 ≠ row; omega))]
  · rw [map_some, map_some, if_pos (.inl (by show (col + 1) % 256 ≠ col; omega)),
      if_pos (.inl (by show (col : ℤ) + 1 ≠ col; omega))]
  · rfl
  · rw [map_some, map_some, if_neg (by simp), if_neg (by simp)]

end Target

/-! ### The encoder -/

section Model

variable (maxAcc : ℕ)

/-- `rt_ctrl_elf_put`: in slots at the access's own slot, packed after the words so far. -/
def rtCtrlElfPut (packed : Bool) (addr : ℕ) (ws : List ℕ) (s : Enc) : Option Enc :=
  if s.acc ≥ maxAcc then none
  else
    let capacity := u32 (maxAcc * RT_CTRL_ELF_PKT_STRIDE)
    let slotOff := if packed then s.out.idx else u32 (s.acc * RT_CTRL_ELF_PKT_STRIDE)
    let slotCap := if packed then u32sub capacity slotOff else RT_CTRL_ELF_PKT_STRIDE
    let g := pktizeAt runtimePktParity (slotOff + slotCap) ACR_ID_BCAST addr
      (some fun j => ws.getD j 0) ws.length
      false 0 ⟨slotOff, s.out.p⟩
    if g.1 = 0 then none else some { s with out := ⟨u32 (s.out.idx + g.1), g.2⟩, acc := u32 (s.acc + 1) }

/-- `rt_ctrl_elf_core_reset`. -/
def rtCtrlElfCoreReset (d : CpeDev) (packed : Bool) (s : Enc) : Option Enc :=
  (resetWrites d).foldlM (fun s w => rtCtrlElfPut maxAcc packed w.1 [w.2] s) s

/-- The loop over the chunks of a segment in slots. -/
def fillChunks (byte : ℕ → ℕ) (ph : Phdr) (addr : ℕ) : ℕ → ℕ → Enc → Option Enc
  | 0, _, _ => none
  | fuel + 1, off, s =>
    if off < ph.filesz then
      let chunk := min (ph.filesz - off) 16
      let ws := chunkData byte (ph.offset + off) chunk
      (rtCtrlElfPut maxAcc false (u32 (addr + off)) ws s).bind fun s =>
        fillChunks byte ph addr fuel (u32 (off + chunk))
          { s with lastAddr := u32 (addr + off + (ws.length - 1) * 4), lastVal := ws.getD (ws.length - 1) 0 }
    else some s

/-- One segment: `rt_ctrl_elf_fill_seg_packed` is the loop of `cpe_seg` again. -/
def fillSeg (packed : Bool) (byte : ℕ → ℕ) (ph : Phdr) (addr fuel : ℕ) (s : Enc) : Option Enc :=
  if packed then
    cpeSeg (u32 (maxAcc * RT_CTRL_ELF_PKT_STRIDE))
      (ACR_ID_BCAST ||| (cpeParity ACR_ID_BCAST <<< 31)) byte ph addr fuel s
  else fillChunks maxAcc byte ph addr fuel 0 s

/-- `rt_ctrl_elf_fill`. -/
def rtCtrlElfFill (d : CpeDev) (col row : ℕ) (elf : Image) (packed : Bool) (pkt : ℕ → ℕ)
    (fuel : ℕ) : Option Enc := do
  let s ← rtCtrlElfCoreReset maxAcc d packed ⟨⟨0, pkt⟩, 0, 0, 0⟩
  elf.phdrs.foldlM (phdrStep (rtCtrlElfTarget d col row) fun ph addr =>
    fillSeg maxAcc packed elf.byte ph addr fuel) s

end Model

/-- An access in a slot: as many words as its header announces. -/
def slotAt (p : ℕ → ℕ) (i : ℕ) : Access :=
  ⟨p (8 * i), p (8 * i + 1), (range (hdrBeats (p (8 * i + 1)))).map fun j => p (8 * i + 2 + j)⟩

/-- The accesses in the first `n` slots. -/
def slotsOf (p : ℕ → ℕ) (n : ℕ) : List Access := (range n).map (slotAt p)

/-! ### The packed stream -/

theorem chunkAccess_list {h addr : ℕ} {ws : List ℕ} (hle : ws.length ≤ 4) :
    chunkAccess h addr (some fun j => ws.getD j 0) ws.length 0 = mkAccess h 0 (addr % 2 ^ 20) ws := by
  have hdata : (range (min 4 (ws.length - 4 * 0))).map
      (fun j => dataWord (some fun j => ws.getD j 0) (4 * 0 + j)) = ws := by
    have hmin : min 4 (ws.length - 4 * 0) = ws.length := by omega
    rw [hmin]
    conv_rhs => rw [← map_range_getD ws]
    refine map_congr_left fun j _ => ?_
    rw [dataWord_some, mul_zero, zero_add]
  rw [chunkAccess, hdata, mul_zero, add_zero]

theorem putAcc_mk (h : ℕ) (w : ℕ × ℕ) : putAcc h w = mkAccess h 0 (w.1 % 2 ^ 20) [w.2] := by
  have hlist := @chunkAccess_list h w.1 [w.2] (by rw [length_singleton]; decide)
  rw [← hlist]
  rfl

section Packed

variable {maxAcc : ℕ} {d : CpeDev} {col row : ℕ} {elf : Image} {pkt : ℕ → ℕ} {fuel : ℕ} {s s' : Enc}
    {accs : List Access}

theorem slot_end {i : ℕ} (hroom : i ≤ u32 (maxAcc * RT_CTRL_ELF_PKT_STRIDE)) :
    i + u32sub (u32 (maxAcc * RT_CTRL_ELF_PKT_STRIDE)) i = u32 (maxAcc * RT_CTRL_ELF_PKT_STRIDE) := by
  have hcap : u32 (maxAcc * RT_CTRL_ELF_PKT_STRIDE) < 2 ^ 32 := Nat.mod_lt _ (by decide)
  rw [u32sub_eq hroom hcap]
  omega

theorem putPacked_holds {w : ℕ × ℕ} (hs : s.Holds (u32 (maxAcc * RT_CTRL_ELF_PKT_STRIDE)) accs)
    (hrun : rtCtrlElfPut maxAcc true w.1 [w.2] s = some s') :
    s'.Holds (u32 (maxAcc * RT_CTRL_ELF_PKT_STRIDE)) (accs ++ [putAcc (cpeStreamHdr ACR_ID_BCAST) w]) ∧
      s'.last = s.last := by
  have hcap : u32 (maxAcc * RT_CTRL_ELF_PKT_STRIDE) < 2 ^ 32 := Nat.mod_lt _ (by decide)
  have hsum := slot_end hs.room
  rw [rtCtrlElfPut] at hrun
  by_cases hmax : s.acc ≥ maxAcc
  · rw [if_pos hmax] at hrun
    exact nomatch hrun
  rw [if_neg hmax] at hrun
  dsimp only at hrun
  rw [if_pos rfl, if_pos rfl, hsum, funext runtimePktParity_eq] at hrun
  by_cases hne : (pktizeAt cpeParity (u32 (maxAcc * RT_CTRL_ELF_PKT_STRIDE)) ACR_ID_BCAST w.1
      (some fun j => [w.2].getD j 0) [w.2].length false 0 s.out).1 = 0
  · rw [if_pos hne] at hrun
    exact nomatch hrun
  · rw [if_neg hne] at hrun
    obtain rfl := some.inj hrun
    obtain ⟨hs', _⟩ := append_holds hcap hs rfl hne
    rw [putAcc_mk, ← @chunkAccess_list _ w.1 [w.2] (by rw [length_singleton]; decide)]
    exact ⟨hs', rfl⟩

/-- **The packed stream** is the body without its final write. -/
theorem fillPacked_holds (hrun : rtCtrlElfFill maxAcc d col row elf true pkt fuel = some s) :
    s.Holds (u32 (maxAcc * RT_CTRL_ELF_PKT_STRIDE)) (bodyAccs d row elf (cpeStreamHdr ACR_ID_BCAST) true) ∧
      s.last = lastWord d row elf := by
  obtain ⟨s₁, hreset, hphdrs⟩ := bind_eq_some_iff.1 hrun
  have h₁ : s₁.Holds (u32 (maxAcc * RT_CTRL_ELF_PKT_STRIDE))
      ([] ++ (resetWrites d).map (putAcc (cpeStreamHdr ACR_ID_BCAST))) ∧ s₁.last = (0, 0) := by
    refine foldlM_rule (I := fun done t => t.Holds (u32 (maxAcc * RT_CTRL_ELF_PKT_STRIDE))
      ([] ++ done.map (putAcc (cpeStreamHdr ACR_ID_BCAST))) ∧ t.last = (0, 0)) ?_ _ [] _ s₁ ?_ hreset
    · rintro done t w t' ⟨ht, hlast⟩ hput
      obtain ⟨ht', hlast'⟩ := putPacked_holds ht hput
      refine ⟨?_, hlast'.trans hlast⟩
      rwa [map_append, map_singleton, ← append_assoc]
    · exact ⟨holds_init pkt, rfl⟩
  rw [funext fun paddr => @rtCtrlElfTarget_eq d col row paddr] at hphdrs
  obtain ⟨hs, hlast⟩ := packed_rule rfl h₁.1 hphdrs
  rw [h₁.2] at hlast
  exact ⟨hs, hlast⟩

end Packed

/-! ### The slots -/

theorem hdrBeats_le (w : ℕ) : hdrBeats w ≤ 4 := by
  rw [hdrBeats_eq]
  omega

theorem slotAt_congr {p q : ℕ → ℕ} {i : ℕ} (h : ∀ k, 8 * i ≤ k → k < 8 * i + 6 → p k = q k) :
    slotAt p i = slotAt q i := by
  have hbeats := hdrBeats_le (q (8 * i + 1))
  rw [slotAt, slotAt, h _ le_rfl (by omega), h (8 * i + 1) (by omega) (by omega)]
  congr 1
  refine map_congr_left fun j hj => ?_
  have hj' := mem_range.1 hj
  exact h _ (by omega) (by omega)

theorem slotAt_words {p : ℕ → ℕ} {i : ℕ} {a : Access} (hwf : a.WellFormed)
    (h : ((range (a.data.length + 2)).map fun j => p (8 * i + j)) = a.words) : slotAt p i = a := by
  have hget : ∀ j (hj : j < a.data.length + 2), p (8 * i + j) = a.words.getD j 0 := by
    intro j hj
    rw [← h, getD_eq_getElem _ _ (by simpa using hj), getElem_map, getElem_range]
  have hstream : p (8 * i) = a.stream := hget 0 (by omega)
  have hctrl : p (8 * i + 1) = a.ctrl := hget 1 (by omega)
  have hdata : (range a.data.length).map (fun j => p (8 * i + 2 + j)) = a.data := by
    conv_rhs => rw [← map_range_getD a.data]
    refine map_congr_left fun j hj => ?_
    have hj' := mem_range.1 hj
    rw [add_assoc, hget (2 + j) (by omega), Access.words, add_comm 2 j]
    rfl
  rw [slotAt, hstream, hctrl, ← hwf, hdata]

/-- The slots hold `accs`, as long as their offsets do not wrap; the buffer behind the
32-bit offsets is untouched. -/
structure Slots (maxAcc : ℕ) (pkt : ℕ → ℕ) (s : Enc) (accs : List Access) : Prop where
  acc : s.acc = accs.length
  le : accs.length ≤ maxAcc
  slot : accs.length ≤ 2 ^ 29 → ∀ i (hi : i < accs.length), slotAt s.out.p i = accs[i]
  high : ∀ k, 2 ^ 32 ≤ k → s.out.p k = pkt k

section Slot

variable {maxAcc : ℕ} {pkt : ℕ → ℕ} {s s' : Enc} {accs : List Access}

theorem mkAccess_wellFormed {h addr : ℕ} {ws : List ℕ} (hpos : 1 ≤ ws.length) (hle : ws.length ≤ 4) :
    (mkAccess h 0 (addr % 2 ^ 20) ws).WellFormed := by
  have hbeats := hdrBeats_ctrlWord (show addr % 2 ^ 20 < 2 ^ 20 from Nat.mod_lt _ (by decide))
    (show ws.length - 1 < 4 by omega) (show 0 < 4 by decide)
  show ws.length = hdrBeats (cpeCtrlWord (addr % 2 ^ 20 + (ws.length - 1) * 2 ^ 20 + 0 * 2 ^ 22))
  rw [hbeats]
  omega

theorem put_slots (hmax : maxAcc < 2 ^ 32) {addr : ℕ} {ws : List ℕ} (hpos : 1 ≤ ws.length)
    (hle : ws.length ≤ 4)
    (hs : Slots maxAcc pkt s accs) (hrun : rtCtrlElfPut maxAcc false addr ws s = some s') :
    Slots maxAcc pkt s' (accs ++ [mkAccess (cpeStreamHdr ACR_ID_BCAST) 0 (addr % 2 ^ 20) ws]) ∧
    s'.last = s.last := by
  have hacc := hs.acc
  rw [rtCtrlElfPut] at hrun
  by_cases hfull : s.acc ≥ maxAcc
  · rw [if_pos hfull] at hrun
    exact nomatch hrun
  rw [if_neg hfull] at hrun
  dsimp only at hrun
  rw [if_neg Bool.false_ne_true, if_neg Bool.false_ne_true, funext runtimePktParity_eq] at hrun
  set off := u32 (s.acc * RT_CTRL_ELF_PKT_STRIDE) with hoff
  obtain ⟨p, hg, hwords, hframe⟩ := @pktizeAt_chunk (off + RT_CTRL_ELF_PKT_STRIDE) ACR_ID_BCAST addr
    (some fun j => ws.getD j 0) 0 ⟨off, s.out.p⟩ ws.length hpos hle (by
      show off + (ws.length + 2) ≤ off + 8
      omega)
  have hne : ¬ws.length + 2 = 0 := by omega
  rw [hg] at hrun
  dsimp only at hrun hwords hframe
  rw [if_neg hne] at hrun
  obtain rfl := some.inj hrun
  rw [chunkAccess_list hle] at hwords
  have hlen : (accs ++ [mkAccess (cpeStreamHdr ACR_ID_BCAST) 0 (addr % 2 ^ 20) ws]).length =
      accs.length + 1 := by
    rw [length_append, length_singleton]
  have hoff8 : off % 8 = 0 ∧ off < 2 ^ 32 := by
    rw [hoff]
    unfold RT_CTRL_ELF_PKT_STRIDE u32
    omega
  refine ⟨⟨?_, by omega, fun hsmall i hi => ?_, fun k hk => ?_⟩, rfl⟩
  · show u32 (s.acc + 1) = _
    rw [hlen, u32_eq (by omega), hacc]
  · have hoffset : off = 8 * accs.length := by
      rw [hoff, hacc, u32_eq (by unfold RT_CTRL_ELF_PKT_STRIDE; omega)]
      exact mul_comm ..
    rw [hlen] at hi hsmall
    rcases lt_or_ge i accs.length with hlt | hge
    · rw [getElem_append_left hlt, ← hs.slot (by omega) i hlt]
      refine slotAt_congr fun k _ hk => hframe k (.inl ?_)
      omega
    · obtain rfl : i = accs.length := by omega
      rw [getElem_concat_length rfl]
      rw [hoffset] at hwords
      exact slotAt_words (mkAccess_wellFormed hpos hle) hwords
  · exact (hframe k (.inr (by omega))).trans (hs.high k hk)

theorem chunk_slots (hmax : maxAcc < 2 ^ 32) {byte : ℕ → ℕ} {ph : Phdr} {addr c : ℕ}
    (hc : c < chunkCount (segCount ph)) (hs : Slots maxAcc pkt s accs)
    (hrun : rtCtrlElfPut maxAcc false (u32 (addr + 16 * c))
      (chunkAccess (cpeStreamHdr ACR_ID_BCAST) addr (some (segWord byte ph)) (segCount ph) c).data
        s = some s') :
    Slots maxAcc pkt s' (accs ++
      [chunkAccess (cpeStreamHdr ACR_ID_BCAST) addr (some (segWord byte ph)) (segCount ph) c]) := by
  have hlt := chunkCount_iff.1 hc
  have hlen : (chunkAccess (cpeStreamHdr ACR_ID_BCAST) addr (some (segWord byte ph))
    (segCount ph) c).data.length =
      min 4 (segCount ph - 4 * c) := by rw [chunkAccess_data, length_map, length_range]
  obtain ⟨hs', _⟩ := put_slots hmax (by omega) (by omega) hs hrun
  have hmod : u32 (addr + 16 * c) % 2 ^ 20 = (addr + 16 * c) % 2 ^ 20 := by unfold u32; omega
  rw [hmod] at hs'
  exact hs'

theorem slots_last {a v : ℕ} (hs : Slots maxAcc pkt s accs) :
    Slots maxAcc pkt { s with lastAddr := a, lastVal := v } accs :=
  ⟨hs.acc, hs.le, hs.slot, hs.high⟩

theorem fillChunks_slots (hmax : maxAcc < 2 ^ 32) {byte : ℕ → ℕ} {ph : Phdr} {addr : ℕ} :
    ∀ (fuel c : ℕ) (s s' : Enc), c ≤ chunkCount (segCount ph) →
    Slots maxAcc pkt s (accs ++ plainAccs (cpeStreamHdr ACR_ID_BCAST) addr (some (segWord byte ph))
      (segCount ph) c) →
    fillChunks maxAcc byte ph addr fuel (min (16 * c) ph.filesz) s = some s' →
    Slots maxAcc pkt s' (accs ++ segAccs byte (cpeStreamHdr ACR_ID_BCAST) (ph, addr)) ∧
      s'.last = if c < chunkCount (segCount ph) then segLast byte (ph, addr) else s.last := by
  intro fuel
  induction fuel with
  | zero => exact fun c s s' _ _ => nofun
  | succ fuel ih =>
    intro c s s' hle hs hrun
    rw [fillChunks] at hrun
    rcases Nat.eq_or_lt_of_le hle with hdone | hlt
    · have hstop : ¬min (16 * c) ph.filesz < ph.filesz :=
        fun h => absurd (chunk_lt_iff.2 (by omega : 16 * c < ph.filesz))
        (by omega)
      rw [if_neg hstop] at hrun
      obtain rfl := some.inj hrun
      subst hdone
      exact ⟨hs, (if_neg (lt_irrefl _)).symm⟩
    · have hoff := chunk_lt_iff.1 hlt
      have hfs := ph.filesz_lt
      have hmin : min (16 * c) ph.filesz = 16 * c := by omega
      have hnext : u32 (16 * c + min (ph.filesz - 16 * c) 16) = min (16 * (c + 1)) ph.filesz := by
        rw [u32_eq (by omega)]
        omega
      rw [hmin, if_pos hoff] at hrun
      dsimp only at hrun
      rw [hnext, @chunkData_eq (cpeStreamHdr ACR_ID_BCAST) byte ph addr c hlt] at hrun
      obtain ⟨s₁, hput, hrest⟩ := bind_eq_some_iff.1 hrun
      have hs₁ := chunk_slots hmax hlt hs hput
      rw [append_assoc] at hs₁
      obtain ⟨hs', hlast⟩ := ih (c + 1) _ s' hlt (slots_last (by
        rw [plainAccs, range_succ, map_append, ← plainAccs]
        exact hs₁)) hrest
      refine ⟨hs', ?_⟩
      rw [hlast, if_pos hlt]
      by_cases hmore : c + 1 < chunkCount (segCount ph)
      · rw [if_pos hmore]
      · -- the last chunk: its last word is the segment's
        obtain rfl : c = chunkCount (segCount ph) - 1 := by omega
        obtain ⟨hlen, hseg, hword⟩ := @lastChunk_eq (cpeStreamHdr ACR_ID_BCAST) byte ph addr _ (by omega) rfl
        rw [if_neg hmore, Enc.last, segLast, hword, hlen]
        refine Prod.ext (congrArg u32 ?_) rfl
        dsimp only
        omega

end Slot

section Fill

variable {maxAcc : ℕ} {d : CpeDev} {col row : ℕ} {elf : Image} {pkt : ℕ → ℕ} {fuel : ℕ} {s : Enc}

/-- **The slots** hold the accesses of the body without its final write. -/
theorem fillSlots_spec (hmax : maxAcc < 2 ^ 32)
    (hrun : rtCtrlElfFill maxAcc d col row elf false pkt fuel = some s) :
    Slots maxAcc pkt s (bodyAccs d row elf (cpeStreamHdr ACR_ID_BCAST) true) ∧ s.last =
      lastWord d row elf := by
  obtain ⟨s₁, hreset, hphdrs⟩ := bind_eq_some_iff.1 hrun
  have h₁ : Slots maxAcc pkt s₁ ((resetWrites d).map (putAcc (cpeStreamHdr ACR_ID_BCAST))) ∧
      s₁.last = (0, 0) := by
    refine foldlM_rule (I := fun done t =>
      Slots maxAcc pkt t (done.map (putAcc (cpeStreamHdr ACR_ID_BCAST))) ∧
      t.last = (0, 0)) ?_ _ [] _ s₁ ?_ hreset
    · rintro done t w t' ⟨ht, hlast⟩ hput
      have hone : [w.2].length = 1 := rfl
      obtain ⟨ht', hlast'⟩ := put_slots hmax (by omega) (by omega) ht hput
      refine ⟨?_, hlast'.trans hlast⟩
      rwa [map_append, map_singleton, putAcc_mk]
    · exact ⟨⟨rfl, Nat.zero_le _, fun _ i hi => absurd hi (Nat.not_lt_zero i), fun _ _ => rfl⟩, rfl⟩
  rw [funext fun paddr => @rtCtrlElfTarget_eq d col row paddr] at hphdrs
  refine phdrs_rule (I := fun done t =>
    Slots maxAcc pkt t ((resetWrites d).map (putAcc (cpeStreamHdr ACR_ID_BCAST)) ++
    done.flatMap (segAccs elf.byte (cpeStreamHdr ACR_ID_BCAST))) ∧
      t.last = (done.map (segLast elf.byte)).getLast?.getD (0, 0)) ?_ ?_ hphdrs
  · rintro done t ph addr t' ⟨ht, _⟩ hpos hseg
    have hcount : 0 < chunkCount (segCount ph) := chunk_lt_iff.2 (by omega)
    obtain ⟨ht', hlast⟩ := @fillChunks_slots maxAcc pkt _ hmax elf.byte ph addr fuel 0 t t' (Nat.zero_le _)
      (by rw [plainAccs, range_zero, map_nil, append_nil]; exact ht)
      (by rw [mul_zero, Nat.zero_min]; exact hseg)
    rw [if_pos hcount] at hlast
    rw [flatMap_append, flatMap_singleton, ← append_assoc, map_append, map_singleton,
      getLast?_concat]
    exact ⟨ht', hlast⟩
  · exact ⟨by rw [flatMap_nil, append_nil]; exact h₁.1, h₁.2⟩

end Fill

/-! ### Agreement -/

/-- What the three encoders have to agree on: the writes, the number of accesses, the last
word loaded; the body has one more access, the write with return of that word. -/
def Agree (s₁ s₂ : Enc) (b : Body) : Prop :=
  ∃ stream body ack, walk ((range s₂.out.idx).map s₂.out.p) = some stream ∧
    walk ((range b.words).map b.pkt) = some (body ++ [ack]) ∧
    (slotsOf s₁.out.p s₁.acc).flatMap Access.writes = stream.flatMap Access.writes ∧
    stream.flatMap Access.writes = body.flatMap Access.writes ∧
    s₁.acc = stream.length ∧ s₂.acc = stream.length ∧ b.nacc = stream.length ∧ body.length = stream.length ∧
    s₁.last = s₂.last ∧ (∀ a ∈ body, hdrOp a.ctrl = 0) ∧ hdrOp ack.ctrl = 2 ∧
    ack.writes = [(s₂.lastAddr % 2 ^ 20, s₂.lastVal)]

section Agreement

variable {maxAcc maxAcc' cap : ℕ} {d : CpeDev} {col row : ℕ} {elf : Image} {pkt : ℕ → ℕ} {fuel : ℕ}
    {s₁ s₂ : Enc} {b : Body}

section

variable (hs : s₂.Holds (u32 (maxAcc' * RT_CTRL_ELF_PKT_STRIDE))
      (bodyAccs d row elf (cpeStreamHdr ACR_ID_BCAST) true))

include hs

/-- The packed stream never wraps: its capacity is a multiple of 8. -/
theorem packed_fits : accLen (bodyAccs d row elf (cpeStreamHdr ACR_ID_BCAST) true) ≤ 2 ^ 32 - 8 := by
  have hcap : u32 (maxAcc' * RT_CTRL_ELF_PKT_STRIDE) ≤ 2 ^ 32 - 8 := by
    unfold RT_CTRL_ELF_PKT_STRIDE u32
    omega
  exact le_trans (hs.fits hcap) hcap

theorem walk_packed : walk ((range s₂.out.idx).map s₂.out.p) =
      some (bodyAccs d row elf (cpeStreamHdr ACR_ID_BCAST) true) := by
  have hfit := packed_fits hs
  have hwords := hs.words (by omega)
  rw [Out.words] at hwords
  rw [hwords]
  exact walk_words fun a ha => (bodyAccs_fields ha).1

end

/-- **Slots that do not wrap agree** with the packed stream and the body. -/
theorem agree_of_small (hmax : maxAcc < 2 ^ 32) (hcap : cap < 2 ^ 32)
    (h₁ : rtCtrlElfFill maxAcc d col row elf false pkt fuel = some s₁)
    (h₂ : rtCtrlElfFill maxAcc' d col row elf true pkt fuel = some s₂)
    (hb : rtCpeEncodeBody cap d col row elf ACR_ID_BCAST true pkt fuel = some b)
    (hsmall : (bodyAccs d row elf (cpeStreamHdr ACR_ID_BCAST) true).length ≤ 2 ^ 29) : Agree s₁ s₂ b := by
  obtain ⟨hslots, hlast₁⟩ := fillSlots_spec hmax h₁
  obtain ⟨hs, hlast₂⟩ := fillPacked_holds h₂
  have hfit := packed_fits hs
  obtain ⟨s, hs', _, _, hfin⟩ := encode_spec hcap hb
  obtain ⟨_, _, _, hnacc, _⟩ := finish_spec hcap hs' hfin
  have hbody := walk_body hcap hb
    (by rw [bodyLen, ← @accLen_body d row elf (cpeStreamHdr ACR_ID_BCAST) true]; omega)
  have hslot : slotsOf s₁.out.p s₁.acc = bodyAccs d row elf (cpeStreamHdr ACR_ID_BCAST) true := by
    rw [slotsOf, hslots.acc]
    refine ext_getElem (by rw [length_map, length_range]) fun i _ hi => ?_
    rw [getElem_map, getElem_range]
    exact hslots.slot hsmall i hi
  have hlen : u32 (bodyAccs d row elf (cpeStreamHdr ACR_ID_BCAST) true).length =
      (bodyAccs d row elf (cpeStreamHdr ACR_ID_BCAST) true).length := u32_eq (by omega)
  refine ⟨_, _, _, walk_packed hs, hbody, by rw [hslot], rfl, hslots.acc, hs.acc.trans hlen, ?_, rfl,
    hlast₁.trans hlast₂.symm, fun a ha => (bodyAccs_fields ha).2, ackAcc_fields.2.2, ?_⟩
  · rw [hnacc, hs'.acc, hlen]
  · rw [ackAcc_fields.2.1, ← hlast₂]
    rfl

/-- A buffer of zeros but for the third word of each slot. -/
def slotBuf (v : ℕ) : ℕ → ℕ := fun k => if k % 8 = 2 then v else 0

theorem slotAt_high {v i : ℕ} {p : ℕ → ℕ} (hp : ∀ k, 2 ^ 32 ≤ k → p k = slotBuf v k) (hi : 2 ^ 29 ≤ i) :
    (slotAt p i).writes = [(0, v)] := by
  have h0 : p (8 * i) = 0 := by
    rw [hp _ (by omega), slotBuf, if_neg (by omega)]
  have h1 : p (8 * i + 1) = 0 := by
    rw [hp _ (by omega), slotBuf, if_neg (by omega)]
  have h2 : p (8 * i + 2 + 0) = v := by
    rw [hp _ (by omega), slotBuf, if_pos (by omega)]
  have hbeats : range (hdrBeats 0) = [0] := rfl
  rw [slotAt, h0, h1, hbeats, map_singleton, h2]
  simp [Access.writes, hdrAddr]

/-- A slot beyond the 32-bit offsets is read as the buffer was before. -/
theorem getLast_slots {v : ℕ} (hmax : maxAcc < 2 ^ 32)
    (h₁ : rtCtrlElfFill maxAcc d col row elf false (slotBuf v) fuel = some s₁)
    (hlarge : 2 ^ 29 < (bodyAccs d row elf (cpeStreamHdr ACR_ID_BCAST) true).length) :
    ((slotsOf s₁.out.p s₁.acc).flatMap Access.writes).getLast? = some (0, v) := by
  obtain ⟨hslots, _⟩ := fillSlots_spec hmax h₁
  have hacc := hslots.acc
  obtain ⟨n, hn⟩ : ∃ n, s₁.acc = n + 1 := ⟨s₁.acc - 1, by omega⟩
  rw [slotsOf, hn, range_succ, map_append, map_singleton, flatMap_append, flatMap_singleton,
    slotAt_high hslots.high (by omega), getLast?_concat]

/-- Slots that wrap show what the buffer held before. -/
theorem not_agree_of_large (hmax : maxAcc < 2 ^ 32)
    (h₁ : ∀ pkt, (rtCtrlElfFill maxAcc d col row elf false pkt fuel).isSome)
    (h₂ : ∀ pkt, (rtCtrlElfFill maxAcc' d col row elf true pkt fuel).isSome)
    (hb : ∀ pkt, (rtCpeEncodeBody cap d col row elf ACR_ID_BCAST true pkt fuel).isSome)
    (hlarge : 2 ^ 29 < (bodyAccs d row elf (cpeStreamHdr ACR_ID_BCAST) true).length) :
    ¬∀ pkt, ∀ s₁ ∈ rtCtrlElfFill maxAcc d col row elf false pkt fuel,
      ∀ s₂ ∈ rtCtrlElfFill maxAcc' d col row elf true pkt fuel,
      ∀ b ∈ rtCpeEncodeBody cap d col row elf ACR_ID_BCAST true pkt fuel, Agree s₁ s₂ b := by
  intro hagree
  -- the last slot read shows two different buffers
  have hlast : ∀ v, ((bodyAccs d row elf (cpeStreamHdr ACR_ID_BCAST) true).flatMap Access.writes).getLast? =
      some (0, v) := by
    intro v
    obtain ⟨s₁, hs₁⟩ := isSome_iff_exists.1 (h₁ (slotBuf v))
    obtain ⟨s₂, hs₂⟩ := isSome_iff_exists.1 (h₂ (slotBuf v))
    obtain ⟨b, hb'⟩ := isSome_iff_exists.1 (hb (slotBuf v))
    obtain ⟨stream, _, _, hstream, _, hwrites, _⟩ := hagree _ s₁ hs₁ s₂ hs₂ b hb'
    obtain ⟨hs, _⟩ := fillPacked_holds hs₂
    obtain rfl := some.inj ((walk_packed hs).symm.trans hstream)
    rw [← hwrites]
    exact getLast_slots hmax hs₁ hlarge
  have hzero := (hlast 0).symm.trans (hlast 1)
  exact absurd hzero (by decide)

/-- **The three encoders agree**, whatever the buffer held before, exactly when the body
has at most `2^29` accesses: with more, slots overwrite each other. -/
theorem encoders_agree_iff (hmax : maxAcc < 2 ^ 32) (hcap : cap < 2 ^ 32)
    (h₁ : ∀ pkt, (rtCtrlElfFill maxAcc d col row elf false pkt fuel).isSome)
    (h₂ : ∀ pkt, (rtCtrlElfFill maxAcc' d col row elf true pkt fuel).isSome)
    (hb : ∀ pkt, (rtCpeEncodeBody cap d col row elf ACR_ID_BCAST true pkt fuel).isSome) :
    (∀ pkt, ∀ s₁ ∈ rtCtrlElfFill maxAcc d col row elf false pkt fuel,
      ∀ s₂ ∈ rtCtrlElfFill maxAcc' d col row elf true pkt fuel,
      ∀ b ∈ rtCpeEncodeBody cap d col row elf ACR_ID_BCAST true pkt fuel, Agree s₁ s₂ b) ↔
    (bodyAccs d row elf (cpeStreamHdr ACR_ID_BCAST) true).length ≤ 2 ^ 29 := by
  constructor
  · intro hagree
    by_contra hlarge
    exact not_agree_of_large hmax h₁ h₂ hb (Nat.lt_of_not_le hlarge) hagree
  · intro hsmall pkt s₁ hs₁ s₂ hs₂ b hb'
    exact agree_of_small hmax hcap hs₁ hs₂ hb' hsmall

end Agreement

/-- One word and the reset of a core without DMA channels: three accesses each. -/
theorem encoders_agree_oneWord :
    ∃ s₁ s₂ b, rtCtrlElfFill 3 smallDev 0 2 oneWord false (fun _ => 0) 2 = some s₁ ∧
    rtCtrlElfFill 3 smallDev 0 2 oneWord true (fun _ => 0) 2 = some s₂ ∧
    rtCpeEncodeBody 12 smallDev 0 2 oneWord ACR_ID_BCAST true (fun _ => 0) 2 = some b ∧ Agree s₁ s₂ b := by
  have h₁ : ∀ pkt, (rtCtrlElfFill 3 smallDev 0 2 oneWord false pkt 2).isSome := fun _ =>
    by with_unfolding_all rfl
  have h₂ : ∀ pkt, (rtCtrlElfFill 3 smallDev 0 2 oneWord true pkt 2).isSome := fun _ =>
    by with_unfolding_all rfl
  have hb : ∀ pkt, (rtCpeEncodeBody 12 smallDev 0 2 oneWord ACR_ID_BCAST true pkt 2).isSome :=
    fun _ => by with_unfolding_all rfl
  obtain ⟨s₁, hs₁⟩ := isSome_iff_exists.1 (h₁ fun _ => 0)
  obtain ⟨s₂, hs₂⟩ := isSome_iff_exists.1 (h₂ fun _ => 0)
  obtain ⟨b, hb'⟩ := isSome_iff_exists.1 (hb fun _ => 0)
  refine ⟨s₁, s₂, b, hs₁, hs₂, hb', ?_⟩
  exact (encoders_agree_iff (by decide) (by decide) h₁ h₂ hb).2 (by decide) _ s₁ hs₁ s₂ hs₂ b hb'

/-! ### Many channels -/

section Channels

variable {maxAcc cap : ℕ} {d : CpeDev} {col row : ℕ} {pkt : ℕ → ℕ} {fuel : ℕ}

/-- Puts of one word go on while there is room for three words more and one access more. -/
theorem puts_total (pkt : ℕ → ℕ) {f : Enc → ℕ × ℕ → Option Enc} {n : ℕ} (hcap : cap < 2 ^ 32)
    (hput : ∀ s w, s.out.idx + 3 ≤ cap → s.acc < n →
      ∃ p, f s w = some { s with out := ⟨u32 (s.out.idx + 3), p⟩, acc := u32 (s.acc + 1) })
    (ws : List (ℕ × ℕ)) (hroom : 3 * ws.length ≤ cap) (hfree : ws.length ≤ n) :
    ∃ s, ws.foldlM f ⟨⟨0, pkt⟩, 0, 0, 0⟩ = some s ∧ s.out.idx = 3 * ws.length ∧ s.acc = ws.length := by
  refine foldlM_total (I := fun done (t : Enc) => t.out.idx = 3 * done.length ∧ t.acc = done.length)
    (n := ws.length) ?_ ws [] _
    (Nat.zero_add _).le ⟨rfl, rfl⟩
  rintro done t w hlt ⟨hidx, hacc⟩
  obtain ⟨p, hp⟩ := hput t w (by omega) (by omega)
  refine ⟨_, hp, ?_, ?_⟩
  · rw [length_append, length_singleton, u32_eq (by omega), hidx, Nat.mul_succ]
  · rw [length_append, length_singleton, u32_eq (show t.acc + 1 < 2 ^ 32 by omega), hacc]

theorem rtCtrlElfPut_total {packed : Bool} {s : Enc} {w : ℕ × ℕ} (hfree : s.acc < maxAcc)
    (hroom : s.out.idx + 3 ≤ u32 (maxAcc * RT_CTRL_ELF_PKT_STRIDE)) :
    ∃ p, rtCtrlElfPut maxAcc packed w.1 [w.2] s =
      some { s with out := ⟨u32 (s.out.idx + 3), p⟩, acc := u32 (s.acc + 1) } := by
  rw [rtCtrlElfPut, if_neg (not_le.2 hfree), funext runtimePktParity_eq]
  dsimp only
  set off := if packed = true then s.out.idx else u32 (s.acc * RT_CTRL_ELF_PKT_STRIDE) with hoff
  set size := if packed = true then u32sub (u32 (maxAcc * RT_CTRL_ELF_PKT_STRIDE)) off
    else RT_CTRL_ELF_PKT_STRIDE with hsize
  have hfits : off + pktLen 1 false ≤ off + size := by
    cases packed with
    | false => exact Nat.add_le_add_left (show pktLen 1 false ≤ RT_CTRL_ELF_PKT_STRIDE by decide) off
    | true =>
      rw [hsize, if_pos rfl, hoff, if_pos rfl, slot_end (le_trans (Nat.le_add_right _ _) hroom)]
      exact hroom
  obtain ⟨p, hg, _⟩ := @pktizeAt_fits (off + size) ACR_ID_BCAST w.1 (some fun j => [w.2].getD j 0) 1 false 0
    ⟨off, s.out.p⟩ (by decide) hfits
  rw [show [w.2].length = 1 from rfl, hg]
  exact ⟨p, if_neg (show ¬pktLen 1 false = 0 by decide)⟩

theorem fill_noSegment (packed : Bool) (hlen : (resetWrites d).length ≤ maxAcc)
    (hroom : 3 * (resetWrites d).length ≤ u32 (maxAcc * RT_CTRL_ELF_PKT_STRIDE)) :
    (rtCtrlElfFill maxAcc d col row noSegment packed pkt fuel).isSome := by
  obtain ⟨s, hrun, _⟩ := puts_total pkt (f := fun s w => rtCtrlElfPut maxAcc packed w.1 [w.2] s)
    (Nat.mod_lt _ (by decide)) (fun s w hroom hfree => rtCtrlElfPut_total hfree hroom)
      (resetWrites d) hroom hlen
  exact isSome_iff_exists.2 ⟨s, bind_eq_some_iff.2 ⟨s, hrun, rfl⟩⟩

theorem encode_noSegment (hcap : cap < 2 ^ 32) (hroom : 3 * (resetWrites d).length + 3 ≤ cap) {sid : ℕ} :
    (rtCpeEncodeBody cap d col row noSegment sid true pkt fuel).isSome := by
  obtain ⟨s, hrun, hidx, hacc⟩ := puts_total pkt (n := cap) (f := fun s w => cpePut1 cap sid w s) hcap
    (fun s w hroom _ => cpePut1_total hroom) (resetWrites d) (by omega) (by omega)
  have hpos : 1 ≤ (resetWrites d).length := by rw [resetWrites, length_append, length_singleton]; omega
  obtain ⟨p, hg, _⟩ := @pktizeAt_fits cap sid s.lastAddr (some fun _ => s.lastVal) 1 true 0 s.out
    (by decide) (show s.out.idx + 3 ≤ cap by omega)
  have hfin : cpeFinish cap sid s = some ⟨u32 (s.out.idx + pktLen 1 true), s.acc, p⟩ := by
    rw [cpeFinish, if_neg (by omega), hg]
    exact if_neg (show ¬pktLen 1 true = 0 by decide)
  exact isSome_iff_exists.2 ⟨_, bind_eq_some_iff.2 ⟨s, hrun, bind_eq_some_iff.2 ⟨s, rfl, hfin⟩⟩⟩

/-- A device of `2^27` DMA channels in each direction. -/
def manyChannels : CpeDev := ⟨0x4000, 0x20000, 0x40000, 0x10000, 0x32000, 2, false, 0x1DE00, 8, 2 ^ 27, 2⟩

theorem resetWrites_length (d : CpeDev) : (resetWrites d).length = 2 * u32 (2 * d.dmaNch) + 2 := by
  rw [resetWrites_eq]
  simp only [length_append, length_cons, length_map, length_range, length_nil]
  omega

theorem manyChannels_length : (resetWrites manyChannels).length = 2 ^ 29 + 2 := by
  have hnch : manyChannels.dmaNch = 2 ^ 27 := rfl
  rw [resetWrites_length, hnch]
  unfold u32
  omega

/-- The reset sequence of `2^27` channels is `2^29 + 2` accesses: the last two slots are
the first two again. -/
theorem encoders_disagree_channels :
    (∀ pkt, (rtCtrlElfFill (3 * 2 ^ 28) manyChannels 0 2 noSegment false pkt 1).isSome) ∧
    (∀ pkt, (rtCtrlElfFill (3 * 2 ^ 28) manyChannels 0 2 noSegment true pkt 1).isSome) ∧
    (∀ pkt, (rtCpeEncodeBody (2 ^ 32 - 1) manyChannels 0 2 noSegment ACR_ID_BCAST true pkt 1).isSome) ∧
    ¬∀ pkt, ∀ s₁ ∈ rtCtrlElfFill (3 * 2 ^ 28) manyChannels 0 2 noSegment false pkt 1,
      ∀ s₂ ∈ rtCtrlElfFill (3 * 2 ^ 28) manyChannels 0 2 noSegment true pkt 1,
      ∀ b ∈ rtCpeEncodeBody (2 ^ 32 - 1) manyChannels 0 2 noSegment ACR_ID_BCAST true pkt 1,
      Agree s₁ s₂ b := by
  have hlen := manyChannels_length
  have hroom : 3 * (2 ^ 29 + 2) ≤ u32 (3 * 2 ^ 28 * RT_CTRL_ELF_PKT_STRIDE) := by
    unfold u32 RT_CTRL_ELF_PKT_STRIDE
    omega
  have h₁ : ∀ pkt, (rtCtrlElfFill (3 * 2 ^ 28) manyChannels 0 2 noSegment false pkt 1).isSome :=
    fun _ => fill_noSegment _ (by omega) (by omega)
  have h₂ : ∀ pkt, (rtCtrlElfFill (3 * 2 ^ 28) manyChannels 0 2 noSegment true pkt 1).isSome :=
    fun _ => fill_noSegment _ (by omega) (by omega)
  have hb : ∀ pkt, (rtCpeEncodeBody (2 ^ 32 - 1) manyChannels 0 2 noSegment ACR_ID_BCAST true pkt 1).isSome :=
    fun _ => encode_noSegment (by omega) (by omega)
  refine ⟨h₁, h₂, hb, fun hagree => not_agree_of_large (by omega) h₁ h₂ hb ?_ hagree⟩
  rw [bodyAccs, if_pos rfl, length_append, length_map, hlen]
  omega

end Channels

end AieHlc.Elf
