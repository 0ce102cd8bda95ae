import AieHlc.Elf.Encode
import AieHlc.Memory.Writes
import AieHlc.Packet.Stream

/-!
# What an encoded image means

The body that `rt_cpe_encode_body` produces, read back access by access: the reset
sequence, the segments for this tile and a final write with return.

* `encode_spec`: the accesses in the buffer, and the last word loaded.
* `BodyMeans`: the body is the reset sequence and the segments, and its final write
  changes nothing.
* `bodyMeans_iff`: **when a body that is produced means that**: its length has not
  wrapped, no address of this tile is the mark for other tiles, and there is a segment
  for this tile or the reset sequence clears address 0.
-/

namespace AieHlc.Elf

open List AieHlc.Word AieHlc.Packet AieHlc.Memory

variable {byte : ℕ → ℕ} {s : Phdr × ℕ}

/-! ### The encoder's result -/

section Result

variable {cap : ℕ} {d : CpeDev} {col row : ℤ} {elf : Image} {sid : ℕ} {wantReset : Bool}
    {pkt : ℕ → ℕ} {fuel : ℕ}
  {b : Body}

def ackAcc (h : ℕ) (w : ℕ × ℕ) : Access := mkAck h 0 (w.1 % 2 ^ 20) w.2

theorem ackAcc_eq (h a v : ℕ) : pktAccs h a (some fun _ => v) 1 true 0 = [ackAcc h (a, v)] := rfl

theorem holds_init (pkt : ℕ → ℕ) : Enc.Holds cap ⟨⟨0, pkt⟩, 0, 0, 0⟩ [] :=
  ⟨rfl, Nat.zero_le _, fun _ => rfl, rfl, fun _ => Nat.zero_le _⟩

/-- The last word loaded with its 32-bit address, or address 0 and the value 0. -/
def lastWord (d : CpeDev) (row : ℤ) (elf : Image) : ℕ × ℕ :=
  ((loaded d row elf.phdrs).map (segLast elf.byte)).getLast?.getD (0, 0)

/-- **The encoder's buffer** before the final write. -/
theorem encode_spec (hcap : cap < 2 ^ 32)
    (hrun : rtCpeEncodeBody cap d col row elf sid wantReset pkt fuel = some b) :
    ∃ s : Enc, s.Holds cap (bodyAccs d row elf (cpeStreamHdr sid) wantReset) ∧
      s.last = lastWord d row elf ∧
      (wantReset → 3 * (resetWrites d).length ≤ cap) ∧ cpeFinish cap sid s = some b := by
  obtain ⟨s₁, h₁, hrun⟩ := Option.bind_eq_some_iff.1 hrun
  obtain ⟨s₂, h₂, hfin⟩ := Option.bind_eq_some_iff.1 hrun
  have hreset : s₁.Holds cap (if wantReset then (resetWrites d).map (putAcc (cpeStreamHdr sid)) else []) ∧
      s₁.last = (0, 0) ∧ (wantReset → 3 * (resetWrites d).length ≤ cap) := by
    cases wantReset with
    | false =>
      obtain rfl := Option.some.inj h₁
      exact ⟨holds_init pkt, rfl, nofun⟩
    | true =>
      obtain ⟨hs, hidx, hlast⟩ := cpeReset_holds hcap (holds_init pkt) h₁
      refine ⟨hs, hlast, fun _ => ?_⟩
      have hroom := hs.room
      rw [hidx] at hroom
      exact (Nat.zero_add _).symm.trans_le hroom
  obtain ⟨hs₁, hlast₁, hroom⟩ := hreset
  obtain ⟨hs₂, hlast₂⟩ := packed_rule rfl hs₁ h₂
  rw [hlast₁] at hlast₂
  exact ⟨s₂, hs₂, hlast₂, hroom, hfin⟩

theorem finish_spec (hcap : cap < 2 ^ 32) {s : Enc} {accs : List Access} (hs : s.Holds cap accs)
    (hrun : cpeFinish cap sid s = some b) : b.words = s.out.idx + 3 ∧ b.words ≤ cap ∧ accs ≠ [] ∧
    b.nacc = s.acc ∧
      (accLen accs < 2 ^ 32 → (range b.words).map b.pkt =
        (accs ++ [ackAcc (cpeStreamHdr sid) s.last]).flatMap Access.words) := by
  have hlen : pktLen 1 true = 3 := rfl
  rw [cpeFinish] at hrun
  by_cases hempty : s.acc = 0 ∨ s.out.idx = 0
  · rw [if_pos hempty] at hrun
    exact nomatch hrun
  rw [if_neg hempty] at hrun
  have hroom : s.out.idx + pktLen 1 true ≤ cap := by
    by_contra hfull
    have hzero := @pktizeAt_full cap sid s.lastAddr (some fun _ => s.lastVal) 1 true 0 s.out
      (by decide) hs.room
      (Nat.lt_of_not_le hfull)
    rw [if_pos hzero] at hrun
    exact nomatch hrun
  obtain ⟨p, hg, hwords⟩ := @pktizeAt_fits cap sid s.lastAddr (some fun _ => s.lastVal) 1 true
    0 s.out (by decide)
    hroom
  rw [hlen] at hroom hwords hg
  rw [hg] at hrun
  dsimp only at hrun
  have hne : ¬(3 : ℕ) = 0 := by decide
  rw [if_neg hne, u32_eq (by omega)] at hrun
  obtain rfl := Option.some.inj hrun
  refine ⟨rfl, hroom, ?_, rfl, fun hfit => ?_⟩
  · rintro rfl
    exact hempty (.inl hs.acc)
  · rw [ackAcc_eq] at hwords
    rw [flatMap_append, ← hs.words hfit]
    exact hwords

end Result

/-! ### The accesses and their writes -/

section Accesses

variable {d : CpeDev} {row : ℤ} {elf : Image} {h : ℕ} {wantReset : Bool}

theorem putAcc_fields (w : ℕ × ℕ) : (putAcc h w).WellFormed ∧ (putAcc h w).writes = [(w.1 % 2 ^ 20, w.2)] ∧
    hdrOp (putAcc h w).ctrl = 0 := by
  have hc : 0 < chunkCount 1 := by decide
  have hf := @chunkAccess_fields h w.1 (some fun _ => w.2) 1 0 hc
  refine ⟨?_, chunkAccess_writes hc, hf.2.2.1⟩
  rw [Access.WellFormed, putAcc, hf.2.1]
  rfl

theorem segAccs_fields {a : Access} (ha : a ∈ segAccs byte h s) : a.WellFormed ∧ hdrOp a.ctrl = 0 := by
  obtain ⟨c, hc, rfl⟩ := mem_plainAccs ha
  have hf := @chunkAccess_fields h s.2 (some (segWord byte s.1)) _ c hc
  refine ⟨?_, hf.2.2.1⟩
  rw [Access.WellFormed, hf.2.1, chunkAccess_data, length_map, length_range]

theorem segAccs_writes (byte : ℕ → ℕ) (s : Phdr × ℕ) :
    (segAccs byte h s).flatMap Access.writes = segWrites byte s := by
  have hall : min (4 * chunkCount (segCount s.1)) (segCount s.1) = segCount s.1 := by unfold chunkCount; omega
  rw [segAccs, plainAccs_writes _ le_rfl, hall, segWrites]
  simp only [dataWord_some]

theorem accLen_segAccs (byte : ℕ → ℕ) (s : Phdr × ℕ) :
    accLen (segAccs byte h s) = segCount s.1 + 2 * chunkCount (segCount s.1) := by
  have hall : min (4 * chunkCount (segCount s.1)) (segCount s.1) = segCount s.1 := by unfold chunkCount; omega
  rw [accLen, segAccs, plainAccs_length _ le_rfl, lenUpTo, hall]

theorem bodyAccs_fields {a : Access} (ha : a ∈ bodyAccs d row elf h wantReset) :
    a.WellFormed ∧ hdrOp a.ctrl = 0 := by
  rcases mem_append.1 ha with ha | ha
  · cases wantReset with
    | false => exact absurd ha not_mem_nil
    | true =>
      obtain ⟨w, _, rfl⟩ := mem_map.1 ha
      exact ⟨(putAcc_fields w).1, (putAcc_fields w).2.2⟩
  · obtain ⟨s, _, ha⟩ := mem_flatMap.1 ha
    exact segAccs_fields ha

theorem puts_writes (ws : List (ℕ × ℕ)) : (ws.map (putAcc h)).flatMap Access.writes =
    ws.map fun w => (w.1 % 2 ^ 20, w.2) := by
  induction ws with
  | nil => rfl
  | cons w ws ih => rw [map_cons, flatMap_cons, ih, (putAcc_fields w).2.1]; rfl

theorem accLen_puts (ws : List (ℕ × ℕ)) : accLen (ws.map (putAcc h)) = 3 * ws.length := by
  induction ws with
  | nil => rfl
  | cons w ws ih =>
    rw [map_cons, ← singleton_append, accLen_append, ih, accLen_put, length_cons]
    omega

def resetCount (d : CpeDev) (wantReset : Bool) : ℕ := if wantReset then (resetWrites d).length else 0

theorem bodyAccs_writes : (bodyAccs d row elf h wantReset).flatMap Access.writes =
    (if wantReset then (resetWrites d).map fun w => (w.1 % 2 ^ 20, w.2) else []) ++
      (loaded d row elf.phdrs).flatMap (segWrites elf.byte) := by
  rw [bodyAccs, flatMap_append, flatMap_assoc]
  congr 1
  · cases wantReset with
    | false => rfl
    | true => exact puts_writes _
  · exact congrArg (fun f => (loaded d row elf.phdrs).flatMap f) (funext fun s => segAccs_writes elf.byte s)

def segTotal (ss : List (Phdr × ℕ)) : ℕ := (ss.map fun s => segCount s.1 + 2 * chunkCount (segCount s.1)).sum

theorem accLen_body : accLen (bodyAccs d row elf h wantReset) =
    3 * resetCount d wantReset + segTotal (loaded d row elf.phdrs) := by
  have hseg : ∀ ss : List (Phdr × ℕ), accLen (ss.flatMap (segAccs elf.byte h)) = segTotal ss := by
    intro ss
    induction ss with
    | nil => rfl
    | cons s ss ih =>
      rw [flatMap_cons, accLen_append, ih, accLen_segAccs]
      rfl
  rw [bodyAccs, accLen_append, hseg, resetCount]
  cases wantReset with
  | false => rfl
  | true => exact congrArg (· + _) (accLen_puts _)

theorem length_segWrites (byte : ℕ → ℕ) (ss : List (Phdr × ℕ)) :
    (ss.flatMap (segWrites byte)).length = (ss.map fun s => segCount s.1).sum := by
  rw [length_flatMap]
  refine congrArg sum (map_congr_left fun s _ => ?_)
  rw [segWrites, length_map, length_range]

theorem segTotal_bound (ss : List (Phdr × ℕ)) :
    8 * segTotal ss ≤ 3 * (ss.map fun s => s.1.filesz).sum + 21 * ss.length ∧
      8 * segTotal ss ≤ 8 * (ss.map fun s => segCount s.1).sum + (ss.map fun s => s.1.filesz).sum +
        15 * ss.length := by
  induction ss with
  | nil => exact ⟨le_rfl, le_rfl⟩
  | cons s ss ih =>
    unfold segTotal at ih ⊢
    simp only [map_cons, sum_cons, length_cons]
    unfold segCount chunkCount at ih ⊢
    omega

end Accesses

/-! ### The meaning of a body -/

section Meaning

variable (d : CpeDev) (row : ℤ) (elf : Image) (wantReset : Bool)

/-- The body reads back as the writes it is for and one more, the only write with
return. That write repeats the last word of the last segment, and changes no memory. -/
def BodyMeans (b : Body) : Prop :=
  ∃ accs w, walk ((range b.words).map b.pkt) = some accs ∧
    accs.flatMap Access.writes = bodyWrites d row elf wantReset ++ [w] ∧ OneAck accs ∧
    (∀ x ∈ ((owned d row elf.phdrs).flatMap (segWrites elf.byte)).getLast?, w = x) ∧
    ∀ m : ℕ → ℕ, run (bodyWrites d row elf wantReset ++ [w]) m = run (bodyWrites d row elf wantReset) m

/-- The reset sequence writes address 0 of the tile. -/
def ClearsZero : Prop := ∃ w ∈ resetWrites d, w.1 % 2 ^ 20 = 0

/-- The words of a body, its final write included. -/
def bodyLen : ℕ := 3 * resetCount d wantReset + segTotal (loaded d row elf.phdrs) + 3

end Meaning

section Reset

variable {d : CpeDev}

theorem resetWrites_eq : resetWrites d = (d.coreCtrlOff, d.coreRstMask) ::
    (((range (u32 (2 * d.dmaNch))).map fun c => (u32 (d.dmaChCtrlOff + u32 (c * d.dmaChStride)),
      d.dmaChRstMask)) ++
      ((range (u32 (2 * d.dmaNch))).map fun c => (u32 (d.dmaChCtrlOff + u32 (c * d.dmaChStride)), 0))) ++
    [(d.coreCtrlOff, 0)] := by
  have htwo : range 2 = [0, 1] := rfl
  rw [resetWrites, htwo, flatMap_cons, flatMap_singleton]
  rfl

/-- **The reset sequence leaves 0** at address 0, if it writes there. -/
theorem lastTo_reset : lastTo 0 ((resetWrites d).map fun w => (w.1 % 2 ^ 20, w.2)) = some 0 ↔
    ClearsZero d := by
  constructor
  · intro h
    by_contra hno
    have hnone : lastTo 0 ((resetWrites d).map fun w => (w.1 % 2 ^ 20, w.2)) = none := by
      rw [lastTo_eq_none]
      intro w hw
      obtain ⟨x, hx, rfl⟩ := mem_map.1 hw
      exact fun hzero => hno ⟨x, hx, hzero⟩
    rw [hnone] at h
    exact nomatch h
  · rintro ⟨w, hw, hzero⟩
    rw [resetWrites_eq] at hw ⊢
    by_cases hcore : d.coreCtrlOff % 2 ^ 20 = 0
    · rw [map_append, map_singleton, hcore]
      exact lastTo_concat ..
    · -- the core register is elsewhere: a channel's last write is the release
      have hchan : ∃ x ∈ (range (u32 (2 * d.dmaNch))).map fun c =>
          (u32 (d.dmaChCtrlOff + u32 (c * d.dmaChStride)) % 2 ^ 20, 0), x.1 = 0 := by
        rw [cons_append, mem_cons, mem_append, mem_append, mem_singleton] at hw
        rcases hw with rfl | (hw | hw) | rfl
        · exact absurd hzero hcore
        · obtain ⟨c, hc, rfl⟩ := mem_map.1 hw
          exact ⟨_, mem_map.2 ⟨c, hc, rfl⟩, hzero⟩
        · obtain ⟨c, hc, rfl⟩ := mem_map.1 hw
          exact ⟨_, mem_map.2 ⟨c, hc, rfl⟩, hzero⟩
        · exact absurd hzero hcore
      have hrel : lastTo 0 ((range (u32 (2 * d.dmaNch))).map fun c =>
          (u32 (d.dmaChCtrlOff + u32 (c * d.dmaChStride)) % 2 ^ 20, 0)) = some 0 := by
        refine lastTo_of_all (fun x hx _ => ?_) hchan
        obtain ⟨c, _, rfl⟩ := mem_map.1 hx
        rfl
      have hcore' : lastTo 0 [(d.coreCtrlOff % 2 ^ 20, 0)] = none := by
        rw [lastTo_eq_none]
        intro x hx
        rw [mem_singleton.1 hx]
        exact hcore
      rw [map_append, map_cons, map_append, map_map, map_map, map_singleton, lastTo_append,
        hcore', Option.none_or, ← cons_append, lastTo_append]
      rw [show ((fun w : ℕ × ℕ => (w.1 % 2 ^ 20, w.2)) ∘ fun c =>
        (u32 (d.dmaChCtrlOff + u32 (c * d.dmaChStride)), 0)) = fun c =>
          (u32 (d.dmaChCtrlOff + u32 (c * d.dmaChStride)) % 2 ^ 20, 0) from rfl, hrel]
      rfl

end Reset

section Owned

variable {d : CpeDev} {row : ℤ} {elf : Image}

theorem owned_filesz {phs : List Phdr} (hs : s ∈ owned d row phs) : s.1.filesz ≠ 0 := by
  obtain ⟨ph, hph, hmap⟩ := mem_filterMap.1 hs
  obtain ⟨a, _, rfl⟩ := Option.map_eq_some_iff.1 hmap
  have hload := (mem_filter.1 hph).2
  rw [Phdr.loadable, decide_eq_true_iff] at hload
  exact hload.2

theorem loaded_length_le : (loaded d row elf.phdrs).length < 2 ^ 16 := by
  have h1 : (loaded d row elf.phdrs).length ≤ (owned d row elf.phdrs).length := length_filter_le ..
  have h2 : (owned d row elf.phdrs).length ≤ (elf.phdrs.filter Phdr.loadable).length := length_filterMap_le ..
  have h3 : (elf.phdrs.filter Phdr.loadable).length ≤ elf.phdrs.length := length_filter_le ..
  have h4 := elf.phnum_lt
  omega

theorem sum_filter_le (p : Phdr × ℕ → Bool) (f : Phdr × ℕ → ℕ) (l : List (Phdr × ℕ)) :
    ((l.filter p).map f).sum ≤ (l.map f).sum ∧
      (((l.filter p).map f).sum = (l.map f).sum → ∀ s ∈ l, f s ≠ 0 → p s) := by
  induction l with
  | nil => exact ⟨le_rfl, fun _ => nofun⟩
  | cons s l ih =>
    obtain ⟨hle, heq⟩ := ih
    rw [map_cons, sum_cons]
    by_cases hp : p s
    · rw [filter_cons_of_pos hp, map_cons, sum_cons]
      refine ⟨by omega, fun h => forall_mem_cons.2 ⟨fun _ => hp, heq (by omega)⟩⟩
    · rw [filter_cons_of_neg hp]
      refine ⟨by omega, fun h => forall_mem_cons.2 ⟨fun hf => absurd hf (by omega), heq (by omega)⟩⟩

theorem loaded_eq_owned (h : ∀ s ∈ owned d row elf.phdrs, s.2 ≠ RT_CPE_SKIP_ADDR) :
    loaded d row elf.phdrs = owned d row elf.phdrs :=
  filter_eq_self.2 fun s hs => decide_eq_true (h s hs)

end Owned

section Main

variable {cap : ℕ} {d : CpeDev} {col row : ℤ} {elf : Image} {sid : ℕ} {wantReset : Bool}
    {pkt : ℕ → ℕ} {fuel : ℕ}
  {b : Body}

def lastLoaded (d : CpeDev) (row : ℤ) (elf : Image) : ℕ × ℕ :=
  ((lastWord d row elf).1 % 2 ^ 20, (lastWord d row elf).2)

theorem segWrites_getLast (hpos : s.1.filesz ≠ 0) :
    (segWrites byte s).getLast? = some ((segLast byte s).1 % 2 ^ 20, (segLast byte s).2) := by
  have hn : segCount s.1 = segCount s.1 - 1 + 1 := by unfold segCount; omega
  have hmod : u32 (s.2 + 4 * (segCount s.1 - 1)) % 2 ^ 20 = (s.2 + 4 * (segCount s.1 - 1)) % 2 ^ 20 := by
    unfold u32
    omega
  rw [segWrites, segLast]
  dsimp only
  rw [hmod, hn, range_succ, map_append, map_singleton, getLast?_concat, Nat.add_sub_cancel]

theorem getLast_segWrites {ss : List (Phdr × ℕ)} (h : ∀ s ∈ ss, s.1.filesz ≠ 0) :
    (ss.flatMap (segWrites byte)).getLast? =
      (ss.map (segLast byte)).getLast?.map fun w => (w.1 % 2 ^ 20, w.2) := by
  rcases eq_nil_or_concat' ss with rfl | ⟨init, s, rfl⟩
  · rfl
  · have hlast := @segWrites_getLast byte s (h s (mem_append_right _ mem_cons_self))
    rw [flatMap_append, flatMap_singleton, getLast?_append, hlast, map_append, map_singleton,
      getLast?_concat]
    rfl

theorem ackAcc_fields {h : ℕ} {w : ℕ × ℕ} : (ackAcc h w).WellFormed ∧
    (ackAcc h w).writes = [(w.1 % 2 ^ 20, w.2)] ∧ hdrOp (ackAcc h w).ctrl = 2 := by
  have hmod : w.1 % 2 ^ 20 < 2 ^ 20 := Nat.mod_lt _ (by decide)
  obtain ⟨_, hbeats, hop, _⟩ := @mkAck_fields h 0 _ w.2 hmod (by decide)
  exact ⟨hbeats.symm, mkAck_writes hmod (by decide), hop⟩

theorem length_bodyWrites : (bodyWrites d row elf wantReset).length =
    resetCount d wantReset + ((owned d row elf.phdrs).map fun s => segCount s.1).sum := by
  rw [bodyWrites, length_append, length_segWrites, resetCount]
  cases wantReset with
  | false => rfl
  | true => exact congrArg (· + _) (length_map ..)

theorem walk_body (hcap : cap < 2 ^ 32)
    (hrun : rtCpeEncodeBody cap d col row elf sid wantReset pkt fuel = some b)
    (hfit : bodyLen d row elf wantReset < 2 ^ 32) : walk ((range b.words).map b.pkt) =
      some (bodyAccs d row elf (cpeStreamHdr sid) wantReset ++
        [ackAcc (cpeStreamHdr sid) (lastWord d row elf)]) := by
  obtain ⟨s, hs, hlast, _, hfin⟩ := encode_spec hcap hrun
  obtain ⟨_, _, _, _, hwords⟩ := finish_spec hcap hs hfin
  rw [bodyLen] at hfit
  rw [hwords (by rw [accLen_body]; omega), hlast]
  refine walk_words fun a ha => ?_
  rcases mem_append.1 ha with ha | ha
  · exact (bodyAccs_fields ha).1
  · rw [mem_singleton.1 ha]
    exact ackAcc_fields.1

/-- The length of a body that has wrapped is too short for its writes. -/
theorem words_lt_writes (hcap : cap < 2 ^ 32)
    (hrun : rtCpeEncodeBody cap d col row elf sid wantReset pkt fuel = some b)
    (hsum : ((loaded d row elf.phdrs).map fun s => s.1.filesz).sum < 2 ^ 32)
    (hwrap : 2 ^ 32 ≤ bodyLen d row elf wantReset) :
    b.words < (bodyWrites d row elf wantReset).length + 1 := by
  obtain ⟨s, hs, _, hroom, hfin⟩ := encode_spec hcap hrun
  obtain ⟨hwords, hle, _⟩ := finish_spec hcap hs hfin
  have hidx := hs.idx
  have hreset : 3 * resetCount d wantReset ≤ cap := by
    cases wantReset with
    | false => exact Nat.zero_le cap
    | true => exact hroom rfl
  obtain ⟨hb1, hb2⟩ := segTotal_bound (loaded d row elf.phdrs)
  have hnum := @loaded_length_le d row elf
  have howned := (sum_filter_le (fun s => s.2 ≠ RT_CPE_SKIP_ADDR) (fun s => segCount s.1)
    (owned d row elf.phdrs)).1
  have hload : (owned d row elf.phdrs).filter (fun s => s.2 ≠ RT_CPE_SKIP_ADDR) =
    loaded d row elf.phdrs := rfl
  rw [hload] at howned
  rw [bodyLen] at hwrap
  rw [accLen_body] at hidx
  rw [length_bodyWrites]
  unfold u32 at hidx
  omega

theorem bodyAccs_oneAck : OneAck (bodyAccs d row elf (cpeStreamHdr sid) wantReset ++
    [ackAcc (cpeStreamHdr sid) (lastWord d row elf)]) :=
  ⟨_, _, rfl, ackAcc_fields.2.2, rfl, fun _ ha => (bodyAccs_fields ha).2⟩

theorem body_writes (h : ∀ s ∈ owned d row elf.phdrs, s.2 ≠ RT_CPE_SKIP_ADDR) :
    (bodyAccs d row elf (cpeStreamHdr sid) wantReset ++
      [ackAcc (cpeStreamHdr sid) (lastWord d row elf)]).flatMap Access.writes =
      bodyWrites d row elf wantReset ++ [lastLoaded d row elf] := by
  rw [flatMap_append, bodyAccs_writes, flatMap_singleton, ackAcc_fields.2.1,
    loaded_eq_owned h, bodyWrites]
  rfl

theorem getLast_owned (hne : owned d row elf.phdrs ≠ []) :
    ((owned d row elf.phdrs).flatMap (segWrites elf.byte)).getLast? ≠ none := by
  intro h
  rw [getLast?_eq_none_iff, flatMap_eq_nil_iff] at h
  obtain ⟨s, hs⟩ := exists_mem_of_ne_nil _ hne
  have hnil := congrArg length (h s hs)
  rw [segWrites, length_map, length_range, length_nil] at hnil
  have hpos := owned_filesz hs
  unfold segCount at hnil
  omega

theorem lastLoaded_eq (h : ∀ s ∈ owned d row elf.phdrs, s.2 ≠ RT_CPE_SKIP_ADDR) {x : ℕ × ℕ}
    (hx : ((owned d row elf.phdrs).flatMap (segWrites elf.byte)).getLast? = some x) :
    lastLoaded d row elf = x := by
  rw [getLast_segWrites fun s hs => owned_filesz hs] at hx
  obtain ⟨w, hw, rfl⟩ := Option.map_eq_some_iff.1 hx
  rw [lastLoaded, lastWord, loaded_eq_owned h, hw]
  rfl

/-- Rewriting the last word changes nothing, with a segment or with address 0 cleared. -/
theorem lastTo_body (h : ∀ s ∈ owned d row elf.phdrs, s.2 ≠ RT_CPE_SKIP_ADDR)
    (hcase : owned d row elf.phdrs ≠ [] ∨ wantReset ∧ ClearsZero d) :
    lastTo (lastLoaded d row elf).1 (bodyWrites d row elf wantReset) = some (lastLoaded d row elf).2 := by
  by_cases hne : owned d row elf.phdrs = []
  · obtain ⟨hwant, hclear⟩ := hcase.resolve_left fun h => h hne
    rw [lastLoaded, lastWord, loaded_eq_owned h, bodyWrites, hne, hwant, if_pos rfl, flatMap_nil, append_nil]
    exact lastTo_reset.2 hclear
  · obtain ⟨x, hx⟩ := Option.ne_none_iff_exists'.1 (getLast_owned hne)
    obtain ⟨init, hinit⟩ := getLast?_eq_some_iff.1 hx
    rw [lastLoaded_eq h hx, bodyWrites, hinit, ← append_assoc]
    exact lastTo_concat ..

/-- A body that means its image has not wrapped, leaves out no segment and has a final
write that repeats one before it. -/
theorem bodyMeans_only (hcap : cap < 2 ^ 32)
    (hsum : ((loaded d row elf.phdrs).map fun s => s.1.filesz).sum < 2 ^ 32)
    (hrun : rtCpeEncodeBody cap d col row elf sid wantReset pkt fuel = some b) :
    BodyMeans d row elf wantReset b → bodyLen d row elf wantReset < 2 ^ 32 ∧
      (∀ s ∈ owned d row elf.phdrs, s.2 ≠ RT_CPE_SKIP_ADDR) ∧
      (owned d row elf.phdrs ≠ [] ∨ wantReset ∧ ClearsZero d) := by
  rintro ⟨accs, w, hwalk, hwrites, _, _, hsame⟩
  have hfit : bodyLen d row elf wantReset < 2 ^ 32 := by
    by_contra hwrap
    have hshort := words_lt_writes hcap hrun hsum (Nat.le_of_not_lt hwrap)
    have hle := walk_writes_le hwalk
    rw [hwrites, length_append, length_singleton, length_map, length_range] at hle
    omega
  obtain rfl := Option.some.inj ((walk_body hcap hrun hfit).symm.trans hwalk)
  have hmark : ∀ s ∈ owned d row elf.phdrs, s.2 ≠ RT_CPE_SKIP_ADDR := by
    -- the words of the segments that are loaded are all the words there are
    have hlen := congrArg length hwrites
    rw [flatMap_append, bodyAccs_writes, flatMap_singleton, ackAcc_fields.2.1,
      bodyWrites, length_append, length_append, length_append, length_append, length_segWrites,
      length_segWrites, length_singleton, length_singleton] at hlen
    have heq := (sum_filter_le (fun s => s.2 ≠ RT_CPE_SKIP_ADDR) (fun s => segCount s.1)
      (owned d row elf.phdrs)).2 (by rw [← loaded]; omega)
    intro s hs
    have hpos := owned_filesz hs
    exact of_decide_eq_true (heq s hs (by unfold segCount; omega))
  refine ⟨hfit, hmark, ?_⟩
  by_contra hcase
  obtain ⟨hnil, hclear⟩ := not_or.1 hcase
  have hnil' : owned d row elf.phdrs = [] := by_contra hnil
  have hlast : lastLoaded d row elf = (0, 0) := by
    rw [lastLoaded, lastWord, loaded_eq_owned hmark, hnil']
    rfl
  rw [body_writes hmark, hlast] at hwrites
  obtain rfl := singleton_inj.1 (append_cancel_left hwrites)
  have hzero := lastTo_of_rewrite (show (1 : ℕ) ≠ 0 by decide) hsame
  rw [bodyWrites, hnil', flatMap_nil, append_nil] at hzero
  cases wantReset with
  | false => cases hzero
  | true => exact hclear ⟨rfl, lastTo_reset.1 hzero⟩

/-- **What a body means.** A body that the encoder produces is the reset sequence, the
segments for this tile and a final write that changes nothing, exactly when its words
are fewer than `2 ^ 32`, no segment of this tile has the mark for other tiles as its
address, and a segment is loaded or the reset sequence clears address 0. -/
theorem bodyMeans_iff (hcap : cap < 2 ^ 32)
    (hsum : ((loaded d row elf.phdrs).map fun s => s.1.filesz).sum < 2 ^ 32)
    (hrun : rtCpeEncodeBody cap d col row elf sid wantReset pkt fuel = some b) :
    BodyMeans d row elf wantReset b ↔ bodyLen d row elf wantReset < 2 ^ 32 ∧
      (∀ s ∈ owned d row elf.phdrs, s.2 ≠ RT_CPE_SKIP_ADDR) ∧
      (owned d row elf.phdrs ≠ [] ∨ wantReset ∧ ClearsZero d) := by
  refine ⟨bodyMeans_only hcap hsum hrun, ?_⟩
  rintro ⟨hfit, hmark, hcase⟩
  refine ⟨_, lastLoaded d row elf, walk_body hcap hrun hfit, body_writes hmark, bodyAccs_oneAck, ?_,
    run_rewrite (lastTo_body hmark hcase)⟩
  intro x hx
  exact lastLoaded_eq hmark hx

end Main

/-! ### Two images -/

/-- A device with program memory at `0x20000` and a core register at `0x32000`. -/
def smallDev : CpeDev := ⟨0x4000, 0x20000, 0x40000, 0x10000, 0x32000, 2, false, 0, 0, 0, 0⟩

def oneWord : Image := ⟨[⟨PT_LOAD, 0, 0, 4, by decide⟩], fun i => i, by decide⟩

def noSegment : Image := ⟨[], fun _ => 0, by decide⟩

/-- The one word is written, and written again with return. -/
theorem bodyMeans_oneWord : ∃ b, rtCpeEncodeBody 6 smallDev 0 0 oneWord 16 false (fun _ => 0) 2 = some b ∧
    BodyMeans smallDev 0 oneWord false b := by
  have hsome : (rtCpeEncodeBody 6 smallDev 0 0 oneWord 16 false (fun _ => 0) 2).isSome := by decide +kernel
  obtain ⟨b, hb⟩ := Option.isSome_iff_exists.1 hsome
  refine ⟨b, hb, (bodyMeans_iff (by decide) (by decide) hb).2 ⟨by decide, by decide, .inl ?_⟩⟩
  exact cons_ne_nil (oneWord.phdrs.head (by decide), 0x20000) []

/-- Without a segment the final write stores 0 at address 0. -/
theorem not_bodyMeans_noSegment :
    ∃ b, rtCpeEncodeBody 9 smallDev 0 0 noSegment 16 true (fun _ => 0) 1 = some b ∧
    ¬BodyMeans smallDev 0 noSegment true b := by
  have hsome : (rtCpeEncodeBody 9 smallDev 0 0 noSegment 16 true (fun _ => 0) 1).isSome := by decide +kernel
  obtain ⟨b, hb⟩ := Option.isSome_iff_exists.1 hsome
  refine ⟨b, hb, fun h => ?_⟩
  obtain ⟨_, _, hcase⟩ := bodyMeans_only (by decide) (by decide) hb h
  rcases hcase with hne | ⟨_, w, hw, hzero⟩
  · exact hne rfl
  · have hall : ∀ w ∈ resetWrites smallDev, w.1 % 2 ^ 20 ≠ 0 := by decide
    exact hall w hw hzero

end AieHlc.Elf
