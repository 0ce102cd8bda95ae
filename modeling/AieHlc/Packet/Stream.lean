import AieHlc.Packet.Segment

/-!
# Segments as lists of accesses

Which access a word joins depends on offsets only, never on data. So the encoder
is also a function on lists of accesses (`Chunk`, newest first) whose data may be
of any type: words, or marks that tell where a word of the input ends up.

* `putWord`, `putWords`, `sealLast`: writing and finishing, on lists of accesses.
* `Seg.Holds`: the buffer spells such a list; `Seg.Holds.word`, `Seg.Holds.finish`:
  the encoder follows the list functions.
* `putWords_writes`, `sealLast_writes`: the register writes of a list.
* `putWords_append`: only the newest access is ever looked at.
* `OneAck`, `sealLast_oneAck`: a finished segment asks for one return, at its end.
-/

namespace AieHlc.Packet

open List AieHlc.Word AieHlc.Prog

/-! ### The buffer's words -/

theorem cpeWordsToBoundary_eq (addr : ℕ) :
    cpeWordsToBoundary addr = if (16 - addr % 16) / 4 ≠ 0 then (16 - addr % 16) / 4 else 1 := by
  rw [cpeWordsToBoundary, show (0xF : ℕ) = 2 ^ 4 - 1 from rfl, and_mask]
  rfl

theorem cpeWordsToBoundary_le (addr : ℕ) : addr % 16 + 4 * (cpeWordsToBoundary addr - 1) < 16 ∧
    1 ≤ cpeWordsToBoundary addr ∧ cpeWordsToBoundary addr ≤ 4 := by
  rw [cpeWordsToBoundary_eq]
  split <;> omega

theorem words_length (s : Seg) : s.words.length = s.pw := by
  rw [Seg.words, length_map, length_range]

theorem words_push {s : Seg} (h : s.pw + 1 < 2 ^ 32) (v : ℕ) : (s.push v).words = s.words ++ [v] := by
  rw [Seg.push, Seg.words, u32_eq h]
  exact map_range_update_last _ _ _

theorem words_store (s : Seg) (i v : ℕ) : (s.store i v).words = s.words.set i v := map_range_update _ _ _ _

@[simp] theorem store_pw (s : Seg) (i v : ℕ) : (s.store i v).pw = s.pw := rfl

theorem push_last (s : Seg) (v : ℕ) : (s.push v).last = s.last := rfl

theorem push_pw {s : Seg} (h : s.pw + 1 < 2 ^ 32) (v : ℕ) : (s.push v).pw = s.pw + 1 := u32_eq h

/-- What a word that is accepted does: there was room, and it continued the last access
or started a new one. -/
theorem segWord_ok {cap hdr off d : ℕ} {s s' : Seg} {u : Unit} (h : segWord cap hdr off d s = .ok u s') :
    u32 (s.pw + 5) ≤ cap ∧
      (s.continues off ∧ s' = s.extend d ∨ ¬s.continues off ∧ s' = s.start hdr off d) := by
  obtain ⟨a, s1, h1, h2⟩ := bind_ok.1 h
  cases h1
  by_cases hcap : u32 (s.pw + 5) > cap
  · rw [if_pos hcap] at h2; cases h2
  · rw [if_neg hcap] at h2
    refine ⟨by omega, ?_⟩
    by_cases hc : s.continues off
    · rw [if_pos hc] at h2; cases h2; exact .inl ⟨hc, rfl⟩
    · rw [if_neg hc] at h2; cases h2; exact .inr ⟨hc, rfl⟩

theorem ack_fields {addr : ℕ} (ha : addr < 2 ^ 20) :
    cpeCtrlWord (addr ||| (0x2 <<< 22)) = cpeCtrlWord (addr + 0 * 2 ^ 20 + 2 * 2 ^ 22) := by
  rw [or_shiftLeft_eq_add (by omega), zero_mul, add_zero]

section Lists

variable {α β : Type}

/-- One access: address, operation and data. -/
structure Chunk (α : Type) where
  addr : ℕ
  op : ℕ
  data : List α

/-- One word of a segment: a stream header, a control header or a data word. -/
inductive Slot (α : Type) where
  | hdr
  | ctrl (addr beats op : ℕ)
  | data (d : α)

/-- Whether a word at `off` joins the access. -/
def Chunk.Takes (c : Chunk α) (off : ℕ) : Prop :=
  off = u32 (c.addr + 4 * c.data.length) ∧ c.data.length < cpeWordsToBoundary c.addr

instance (c : Chunk α) (off : ℕ) : Decidable (c.Takes off) := inferInstanceAs (Decidable (_ ∧ _))

def Chunk.single (w : ℕ × α) : Chunk α := ⟨w.1 % 2 ^ 20, 0, [w.2]⟩

/-- The access with one more word; its header is rewritten, so the operation is a
plain write again. -/
def Chunk.add (c : Chunk α) (d : α) : Chunk α := ⟨c.addr, 0, c.data ++ [d]⟩

/-- One word written after the accesses `cs`, newest first. -/
def putWord : List (Chunk α) → ℕ × α → List (Chunk α)
  | [], w => [.single w]
  | c :: cs, w => if c.Takes w.1 then c.add w.2 :: cs else .single w :: c :: cs

def putWords (cs : List (Chunk α)) (ws : List (ℕ × α)) : List (Chunk α) := ws.foldl putWord cs

def Chunk.front (c : Chunk α) : Chunk α := ⟨c.addr, 0, c.data.take (c.data.length - 1)⟩

/-- The last word of the access, as a write with return. -/
def Chunk.back (c : Chunk α) : Chunk α :=
  ⟨c.addr + 4 * (c.data.length - 1), 2, c.data.drop (c.data.length - 1)⟩

/-- The newest access turned into a write with return, its last word alone. -/
def sealLast : List (Chunk α) → List (Chunk α)
  | [] => []
  | c :: cs => if 1 < c.data.length then c.back :: c.front :: cs else c.back :: cs

def Chunk.slots (c : Chunk α) : List (Slot α) :=
  .hdr :: .ctrl c.addr c.data.length c.op :: c.data.map .data

def slots : List (Chunk α) → List (Slot α)
  | [] => []
  | c :: cs => slots cs ++ c.slots

/-- Where the newest control header lies. -/
def lastCtrl : List (Chunk α) → ℕ
  | [] => RT_CPE_NONE
  | _ :: cs => (slots cs).length + 1

def Chunk.writes (c : Chunk α) : List (ℕ × α) := c.data.mapIdx fun i d => ((c.addr + 4 * i) % 2 ^ 20, d)

def chunkWrites : List (Chunk α) → List (ℕ × α)
  | [] => []
  | c :: cs => chunkWrites cs ++ c.writes

/-- An access as the encoder makes them: of one word or more, inside its block. -/
structure Chunk.Valid (c : Chunk α) : Prop where
  addr_lt : c.addr < 2 ^ 20
  op_lt : c.op < 4
  pos : 1 ≤ c.data.length
  block : c.data.length ≤ cpeWordsToBoundary c.addr

theorem Chunk.slots_length (c : Chunk α) : c.slots.length = c.data.length + 2 := by
  rw [Chunk.slots, length_cons, length_cons, length_map]

@[simp] theorem putWords_nil (cs : List (Chunk α)) : putWords cs [] = cs := rfl

@[simp] theorem putWords_cons (cs : List (Chunk α)) (w : ℕ × α) (ws : List (ℕ × α)) :
    putWords cs (w :: ws) = putWords (putWord cs w) ws := rfl

variable {c : Chunk α} {w : ℕ × α}

theorem putWord_joins (h : c.Takes w.1) (cs : List (Chunk α)) :
    putWord (c :: cs) w = c.add w.2 :: cs := if_pos h

theorem putWord_starts (h : ¬c.Takes w.1) (cs : List (Chunk α)) :
    putWord (c :: cs) w = .single w :: c :: cs := if_neg h

theorem putWords_concat (cs : List (Chunk α)) (ws : List (ℕ × α)) (w : ℕ × α) :
    putWords cs (ws ++ [w]) = putWord (putWords cs ws) w := by
  rw [putWords, foldl_append]
  rfl

theorem putWords_split (cs : List (Chunk α)) (ws ws' : List (ℕ × α)) :
    putWords cs (ws ++ ws') = putWords (putWords cs ws) ws' := foldl_append

theorem putWord_ne_nil (cs : List (Chunk α)) (w : ℕ × α) : putWord cs w ≠ [] := by
  unfold putWord
  split
  · exact cons_ne_nil _ _
  · split <;> exact cons_ne_nil _ _

theorem putWords_ne_nil {cs : List (Chunk α)} (h : cs ≠ []) (ws : List (ℕ × α)) : putWords cs ws ≠ [] := by
  induction ws generalizing cs with
  | nil => exact h
  | cons w ws ih => exact ih (putWord_ne_nil cs w)

theorem putWord_append {cs : List (Chunk α)} (h : cs ≠ []) (older : List (Chunk α)) (w : ℕ × α) :
    putWord (cs ++ older) w = putWord cs w ++ older := by
  obtain ⟨c, cs, rfl⟩ := exists_cons_of_ne_nil h
  simp only [cons_append, putWord]
  split <;> rfl

/-- **Locality**: what was closed before stays in front. -/
theorem putWords_append {cs : List (Chunk α)} (h : cs ≠ []) (older : List (Chunk α)) (ws : List (ℕ × α)) :
    putWords (cs ++ older) ws = putWords cs ws ++ older := by
  induction ws generalizing cs with
  | nil => rfl
  | cons w ws ih =>
    rw [putWords_cons, putWord_append h, ih (putWord_ne_nil cs w)]
    rfl

theorem sealLast_append {cs : List (Chunk α)} (h : cs ≠ []) (older : List (Chunk α)) :
    sealLast (cs ++ older) = sealLast cs ++ older := by
  obtain ⟨c, cs, rfl⟩ := exists_cons_of_ne_nil h
  simp only [cons_append, sealLast]
  split <;> rfl

theorem slots_append (cs older : List (Chunk α)) : slots (cs ++ older) = slots older ++ slots cs := by
  induction cs with
  | nil => exact (append_nil _).symm
  | cons c cs ih => rw [cons_append, slots, slots, ih, append_assoc]

theorem putWord_fresh {cs : List (Chunk α)} (h : ∀ c ∈ cs.head?, ¬c.Takes w.1) :
    putWord cs w = .single w :: cs := by
  cases cs with
  | nil => rfl
  | cons c cs => exact if_neg (h c rfl)

/-- **A fresh start**: after accesses the first word does not join, the words are
encoded as from reset. -/
theorem putWords_fresh {cs : List (Chunk α)} (h : ∀ c ∈ cs.head?, ¬c.Takes w.1)
    (ws : List (ℕ × α)) : putWords cs (w :: ws) = putWords [] (w :: ws) ++ cs := by
  rw [putWords_cons, putWord_fresh h, putWords_cons]
  exact putWords_append (cons_ne_nil _ []) cs ws

theorem Chunk.single_valid (w : ℕ × α) : (Chunk.single w).Valid :=
  ⟨Nat.mod_lt _ (by decide), (by decide : 0 < 4), le_rfl, (cpeWordsToBoundary_le _).2.1⟩

theorem Chunk.Valid.add (h : c.Valid) {off : ℕ} (ht : c.Takes off) (d : α) : (c.add d).Valid := by
  have hlen : (c.data ++ [d]).length = c.data.length + 1 := by simp
  have hlt := ht.2
  exact ⟨h.addr_lt, (by decide : 0 < 4), by rw [Chunk.add, hlen]; omega, by rw [Chunk.add, hlen]; exact hlt⟩

theorem Chunk.Valid.end_lt (h : c.Valid) : c.addr + 4 * (c.data.length - 1) < 2 ^ 20 := by
  have h1 := cpeWordsToBoundary_le c.addr
  have h2 := h.block
  have h3 := h.addr_lt
  omega

theorem Chunk.Valid.length_le (h : c.Valid) : c.data.length ≤ 4 :=
  le_trans h.block (cpeWordsToBoundary_le c.addr).2.2

theorem Chunk.Takes.off_eq {off : ℕ} (ht : c.Takes off) (h : c.Valid) :
    off = c.addr + 4 * c.data.length := by
  have hend := h.end_lt
  have hpos := h.pos
  rw [ht.1]
  exact u32_eq (by omega)

theorem putWord_valid {cs : List (Chunk α)} (h : ∀ c ∈ cs, c.Valid) (w : ℕ × α) :
    ∀ c ∈ putWord cs w, c.Valid := by
  cases cs with
  | nil =>
    intro c hc
    rw [mem_singleton.1 hc]
    exact Chunk.single_valid w
  | cons b cs =>
    intro c hc
    by_cases ht : b.Takes w.1
    · rw [putWord_joins ht] at hc
      rcases mem_cons.1 hc with rfl | hc
      · exact (h b mem_cons_self).add ht w.2
      · exact h c (mem_cons_of_mem _ hc)
    · rw [putWord_starts ht] at hc
      rcases mem_cons.1 hc with rfl | hc
      · exact Chunk.single_valid w
      · exact h c hc

theorem putWords_valid {cs : List (Chunk α)} (h : ∀ c ∈ cs, c.Valid) (ws : List (ℕ × α)) :
    ∀ c ∈ putWords cs ws, c.Valid := by
  induction ws generalizing cs with
  | nil => exact h
  | cons w ws ih => exact ih (putWord_valid h w)

theorem putWord_writes {cs : List (Chunk α)} (h : ∀ c ∈ cs, c.Valid) (w : ℕ × α) :
    chunkWrites (putWord cs w) = chunkWrites cs ++ [(w.1 % 2 ^ 20, w.2)] := by
  have hsingle : (Chunk.single w).writes = [(w.1 % 2 ^ 20, w.2)] := by simp [Chunk.single, Chunk.writes]
  cases cs with
  | nil => exact hsingle
  | cons c cs =>
    by_cases ht : c.Takes w.1
    · have hoff := ht.off_eq (h c mem_cons_self)
      rw [putWord_joins ht, chunkWrites, chunkWrites, append_assoc, Chunk.writes, Chunk.writes, Chunk.add,
        mapIdx_append, hoff]
      simp
    · rw [putWord_starts ht, chunkWrites, hsingle]

/-- **The writes of a segment** are those put into it. -/
theorem putWords_writes {cs : List (Chunk α)} (h : ∀ c ∈ cs, c.Valid) (ws : List (ℕ × α)) :
    chunkWrites (putWords cs ws) = chunkWrites cs ++ ws.map fun w => (w.1 % 2 ^ 20, w.2) := by
  induction ws generalizing cs with
  | nil => exact (append_nil _).symm
  | cons w ws ih =>
    rw [putWords_cons, ih (putWord_valid h w), putWord_writes h, append_assoc]
    rfl

theorem sealLast_split (h : 1 < c.data.length) (cs : List (Chunk α)) :
    sealLast (c :: cs) = c.back :: c.front :: cs := if_pos h

theorem sealLast_single (h : ¬1 < c.data.length) (cs : List (Chunk α)) :
    sealLast (c :: cs) = c.back :: cs := if_neg h

theorem Chunk.front_length (c : Chunk α) : c.front.data.length = c.data.length - 1 := by
  rw [Chunk.front, length_take]
  omega

theorem Chunk.Valid.back_length (h : c.Valid) : c.back.data.length = 1 := by
  have hpos := h.pos
  rw [Chunk.back, length_drop]
  omega

theorem Chunk.Valid.back (h : c.Valid) : c.back.Valid := by
  refine ⟨h.end_lt, (by decide : 2 < 4), ?_, ?_⟩
  · rw [h.back_length]
  · rw [h.back_length]
    exact (cpeWordsToBoundary_le _).2.1

theorem Chunk.Valid.front (h : c.Valid) (hlen : 1 < c.data.length) : c.front.Valid := by
  have hblock := h.block
  refine ⟨h.addr_lt, (by decide : 0 < 4), ?_, ?_⟩
  · rw [Chunk.front_length]; omega
  · rw [Chunk.front_length]
    exact le_trans (Nat.sub_le _ _) hblock

theorem sealLast_valid {cs : List (Chunk α)} (h : ∀ c ∈ cs, c.Valid) : ∀ c ∈ sealLast cs, c.Valid := by
  cases cs with
  | nil => exact h
  | cons b cs =>
    have hb := h b mem_cons_self
    intro c hc
    by_cases hlen : 1 < b.data.length
    · rw [sealLast_split hlen] at hc
      rcases mem_cons.1 hc with rfl | hc
      · exact hb.back
      · rcases mem_cons.1 hc with rfl | hc
        · exact hb.front hlen
        · exact h c (mem_cons_of_mem _ hc)
    · rw [sealLast_single hlen] at hc
      rcases mem_cons.1 hc with rfl | hc
      · exact hb.back
      · exact h c (mem_cons_of_mem _ hc)

theorem Chunk.front_back_writes (c : Chunk α) : c.front.writes ++ c.back.writes = c.writes := by
  have hsplit : c.data = c.data.take (c.data.length - 1) ++ c.data.drop (c.data.length - 1) :=
    (take_append_drop _ _).symm
  have htake : (c.data.take (c.data.length - 1)).length = c.data.length - 1 := c.front_length
  simp only [Chunk.writes, Chunk.front, Chunk.back]
  conv_rhs => rw [hsplit, mapIdx_append, htake]
  congr 2
  funext i d
  rw [mul_add, add_assoc, add_comm (4 * i)]

/-- The last chunk is cut in two, which changes none of its writes. -/
theorem sealLast_writes (cs : List (Chunk α)) : chunkWrites (sealLast cs) = chunkWrites cs := by
  cases cs with
  | nil => rfl
  | cons c cs =>
    by_cases hlen : 1 < c.data.length
    · rw [sealLast_split hlen, chunkWrites, chunkWrites, chunkWrites, append_assoc, c.front_back_writes]
    · have hfront : c.front.writes = [] := by
        rw [Chunk.writes, length_eq_zero_iff.1 (show c.front.data.length = 0 by rw [c.front_length]; omega)]
        rfl
      rw [sealLast_single hlen, chunkWrites, chunkWrites, ← c.front_back_writes, hfront, nil_append]

end Lists

/-! ### Words -/

/-- A word of a segment with stream header `h`. -/
def Slot.word (h : ℕ) : Slot ℕ → ℕ
  | .hdr => h
  | .ctrl addr beats op => cpeCtrlWord (addr + (beats - 1) * 2 ^ 20 + op * 2 ^ 22)
  | .data d => d

def wordsOf (h : ℕ) (cs : List (Chunk ℕ)) : List ℕ := (slots cs).map (Slot.word h)

def Chunk.access (h : ℕ) (c : Chunk ℕ) : Access := mkAccess h c.op c.addr c.data

def Chunk.ctrl (c : Chunk ℕ) : ℕ := cpeCtrlWord (c.addr + (c.data.length - 1) * 2 ^ 20 + c.op * 2 ^ 22)

theorem wordsOf_cons (h : ℕ) (c : Chunk ℕ) (cs : List (Chunk ℕ)) :
    wordsOf h (c :: cs) = wordsOf h cs ++ h :: c.ctrl :: c.data := by
  have hdata : (c.data.map Slot.data).map (Slot.word h) = c.data := by
    rw [map_map]
    exact map_id' c.data
  rw [wordsOf, slots, map_append, Chunk.slots, map_cons, map_cons, hdata]
  rfl

theorem wordsOf_append (h : ℕ) (cs older : List (Chunk ℕ)) :
    wordsOf h (cs ++ older) = wordsOf h older ++ wordsOf h cs := by
  rw [wordsOf, slots_append, map_append]
  rfl

theorem wordsOf_length (h : ℕ) (cs : List (Chunk ℕ)) : (wordsOf h cs).length = (slots cs).length :=
  length_map ..

theorem wordsOf_eq_flatMap (h : ℕ) (cs : List (Chunk ℕ)) :
    wordsOf h cs = (cs.reverse.map (Chunk.access h)).flatMap Access.words := by
  induction cs with
  | nil => rfl
  | cons c cs ih =>
    rw [wordsOf_cons, ih, reverse_cons, map_append, flatMap_append]
    simp [Access.words, Chunk.access, mkAccess, Chunk.ctrl]

section Fields

variable {c : Chunk ℕ} (h : c.Valid)

include h

theorem Chunk.Valid.beats_lt : c.data.length - 1 < 4 := by
  have := h.length_le
  omega

theorem Chunk.Valid.hdrAddr_eq : hdrAddr c.ctrl = c.addr := hdrAddr_ctrlWord h.addr_lt h.beats_lt h.op_lt

theorem Chunk.Valid.hdrBeats_eq : hdrBeats c.ctrl = c.data.length := by
  have hpos := h.pos
  rw [Chunk.ctrl, hdrBeats_ctrlWord h.addr_lt h.beats_lt h.op_lt]
  omega

theorem Chunk.Valid.hdrOp_eq : hdrOp c.ctrl = c.op := hdrOp_ctrlWord h.addr_lt h.beats_lt h.op_lt

theorem Chunk.Valid.access_writes (hdr : ℕ) : (c.access hdr).writes = c.writes := by
  have haddr : hdrAddr (c.access hdr).ctrl = c.addr := h.hdrAddr_eq
  rw [Access.writes, haddr]
  rfl

end Fields

variable {cs : List (Chunk ℕ)}

/-- **The words of valid accesses are read back as those accesses.** -/
theorem walk_wordsOf (h : ℕ) (hv : ∀ c ∈ cs, c.Valid) :
    walk (wordsOf h cs) = some (cs.reverse.map (Chunk.access h)) := by
  rw [wordsOf_eq_flatMap]
  apply walk_words
  intro a ha
  obtain ⟨c, hc, rfl⟩ := mem_map.1 ha
  exact (hv c (mem_reverse.1 hc)).hdrBeats_eq.symm

theorem access_writes (h : ℕ) (hv : ∀ c ∈ cs, c.Valid) :
    (cs.reverse.map (Chunk.access h)).flatMap Access.writes = chunkWrites cs := by
  induction cs with
  | nil => rfl
  | cons c cs ih =>
    rw [reverse_cons, map_append, flatMap_append, ih fun b hb => hv b (mem_cons_of_mem _ hb),
      map_singleton, flatMap_singleton, (hv c mem_cons_self).access_writes]
    rfl

/-! ### Acknowledgements -/

/-- Exactly one access is a write with return: the last, of one word. -/
def OneAck (accs : List Access) : Prop :=
  ∃ init a, accs = init ++ [a] ∧ hdrOp a.ctrl = 2 ∧ a.data.length = 1 ∧ ∀ b ∈ init, hdrOp b.ctrl = 0

section Sealed

variable {α : Type}

def Plain (cs : List (Chunk α)) : Prop := ∀ c ∈ cs, c.op = 0

theorem putWord_plain {cs : List (Chunk α)} (h : ∀ c ∈ cs.tail, c.op = 0) (w : ℕ × α)
    (hhead : ∀ c ∈ cs.head?, c.op = 0 ∨ c.Takes w.1) : Plain (putWord cs w) := by
  cases cs with
  | nil =>
    intro c hc
    rw [mem_singleton.1 hc]
    rfl
  | cons b cs =>
    intro c hc
    by_cases ht : b.Takes w.1
    · rw [putWord_joins ht] at hc
      rcases mem_cons.1 hc with rfl | hc
      · rfl
      · exact h c hc
    · rw [putWord_starts ht] at hc
      rcases mem_cons.1 hc with rfl | hc
      · rfl
      · rcases mem_cons.1 hc with rfl | hc
        · exact (hhead c rfl).resolve_right ht
        · exact h c hc

theorem putWords_plain {cs : List (Chunk α)} (h : Plain cs) (ws : List (ℕ × α)) : Plain (putWords cs ws) := by
  induction ws generalizing cs with
  | nil => exact h
  | cons w ws ih =>
    refine ih (putWord_plain (fun c hc => h c (mem_of_mem_tail hc)) w fun c hc => .inl (h c ?_))
    exact mem_of_mem_head? hc

/-- Only the last access asks for an acknowledgement. -/
theorem sealLast_oneAck {h : ℕ} (hne : cs ≠ []) (hv : ∀ c ∈ cs, c.Valid)
    (hop : ∀ c ∈ cs.tail, c.op = 0) : OneAck ((sealLast cs).reverse.map (Chunk.access h)) := by
  obtain ⟨c, cs, rfl⟩ := exists_cons_of_ne_nil hne
  have hc := hv c mem_cons_self
  have hplain : ∀ b ∈ cs.reverse.map (Chunk.access h), hdrOp b.ctrl = 0 := by
    intro b hb
    obtain ⟨d, hd, rfl⟩ := mem_map.1 hb
    have hmem := mem_reverse.1 hd
    have h1 : hdrOp (d.access h).ctrl = d.op := (hv d (mem_cons_of_mem _ hmem)).hdrOp_eq
    rw [h1, hop d hmem]
  by_cases hlen : 1 < c.data.length
  · rw [sealLast_split hlen, reverse_cons, reverse_cons, map_append, map_append]
    refine ⟨_, c.back.access h, rfl, hc.back.hdrOp_eq, hc.back_length, fun b hb => ?_⟩
    rcases mem_append.1 hb with hb | hb
    · exact hplain b hb
    · rw [mem_singleton.1 hb]
      exact (hc.front hlen).hdrOp_eq
  · rw [sealLast_single hlen, reverse_cons, map_append]
    exact ⟨_, c.back.access h, rfl, hc.back.hdrOp_eq, hc.back_length, hplain⟩

end Sealed

/-! ### The buffer -/

/-- The segment `s` holds the accesses `cs`, newest first. -/
structure Seg.Holds (cap h : ℕ) (s : Seg) (cs : List (Chunk ℕ)) : Prop where
  words : s.words = wordsOf h cs
  valid : ∀ c ∈ cs, c.Valid
  last : s.last = lastCtrl cs
  room : s.pw = 0 ∨ s.pw + 2 ≤ cap

section Buffer

variable {cap h : ℕ} {s : Seg} {c : Chunk ℕ} {cs : List (Chunk ℕ)}

theorem holds_reset (p : ℕ → ℕ) : (rtCpeSegReset p).Holds cap h [] := ⟨rfl, by simp, rfl, .inl rfl⟩

theorem Seg.Holds.pw_eq (hs : s.Holds cap h cs) : s.pw = (slots cs).length := by
  rw [← words_length, hs.words, wordsOf_length]

theorem Seg.Holds.ctrl (hs : s.Holds cap h (c :: cs)) : s.p s.last = c.ctrl := by
  have hw : (List.range s.pw).map s.p = (wordsOf h cs ++ [h]) ++ c.ctrl :: c.data := by
    rw [append_assoc]
    exact hs.words.trans (wordsOf_cons h c cs)
  refine eq_of_map_range hw ?_
  rw [hs.last, lastCtrl, length_append, wordsOf_length]
  rfl

theorem Seg.Holds.pw_cons (hs : s.Holds cap h (c :: cs)) : s.pw = s.last + 1 + c.data.length := by
  rw [hs.pw_eq, hs.last, lastCtrl, slots, length_append, c.slots_length]
  omega

theorem Seg.Holds.last_ne (hcap : cap < 2 ^ 32) (hs : s.Holds cap h (c :: cs)) : s.last ≠ RT_CPE_NONE := by
  have hpw := hs.pw_cons
  have hroom := hs.room
  rw [RT_CPE_NONE]
  omega

theorem Seg.Holds.continues_iff (hcap : cap < 2 ^ 32) (hs : s.Holds cap h (c :: cs)) (off : ℕ) :
    s.continues off ↔ c.Takes off := by
  have hv := hs.valid c mem_cons_self
  have hne := hs.last_ne hcap
  unfold Seg.continues Chunk.Takes
  rw [hs.ctrl, hv.hdrAddr_eq, hv.hdrBeats_eq]
  exact and_iff_right hne

theorem Seg.Holds.start (hs : s.Holds cap h cs) (hpw : s.pw + 5 ≤ cap) (hcap : cap < 2 ^ 32) (off d : ℕ) :
    (s.start h off d).Holds cap h (.single (off, d) :: cs) := by
  set s1 := s.push h with hs1
  set s2 := ({ s1 with last := s1.pw } : Seg).push (cpeCtrlWord (off &&& 0xFFFFF)) with hs2
  have hp1 : s1.pw = s.pw + 1 := push_pw (by omega) _
  have hp2 : s2.pw = s.pw + 2 := by
    rw [hs2, push_pw (by simp only [hp1]; omega)]
    simp only [hp1]
  have hp3 : (s2.push d).pw = s.pw + 3 := by rw [push_pw (by omega), hp2]
  have hw2 : s2.words = s.words ++ [h] ++ [cpeCtrlWord (off &&& 0xFFFFF)] := by
    rw [hs2, words_push (by simp only [hp1]; omega)]
    have hw1 : ({ s1 with last := s1.pw } : Seg).words = s1.words := rfl
    rw [hw1, hs1, words_push (by omega)]
  have hctrl : cpeCtrlWord (off &&& 0xFFFFF) = (Chunk.single (off, d)).ctrl := by
    rw [show (0xFFFFF : ℕ) = 2 ^ 20 - 1 from rfl, and_mask, Chunk.ctrl, Chunk.single]
    simp only [length_singleton, Nat.sub_self, zero_mul, add_zero]
  refine ⟨?_, ?_, ?_, .inr ?_⟩
  · show (s2.push d).words = _
    rw [words_push (by omega), hw2, hs.words, hctrl, wordsOf_cons]
    simp [Chunk.single]
  · intro c hc
    rcases mem_cons.1 hc with rfl | hc
    · exact Chunk.single_valid _
    · exact hs.valid c hc
  · show s1.pw = _
    rw [hp1, hs.pw_eq]
    rfl
  · show (s2.push d).pw + 2 ≤ cap
    omega

/-- A word that joins the newest access: its header is rewritten in place. -/
theorem Seg.Holds.join (hs : s.Holds cap h (c :: cs)) (hpw : s.pw + 5 ≤ cap) (hcap : cap < 2 ^ 32) {off : ℕ}
    (ht : c.Takes off) (d : ℕ) : (s.extend d).Holds cap h (c.add d :: cs) := by
  have hv := hs.valid c mem_cons_self
  have hlen : (c.data ++ [d]).length - 1 = c.data.length := by simp
  have hctrl : cpeCtrlWord (hdrAddr (s.p s.last) ||| (hdrBeats (s.p s.last) <<< 20)) = (c.add d).ctrl := by
    rw [hs.ctrl, hv.hdrAddr_eq, hv.hdrBeats_eq, or_shiftLeft_eq_add hv.addr_lt, Chunk.ctrl, Chunk.add]
    dsimp only
    rw [hlen, zero_mul, add_zero]
  have hlast : s.last = (wordsOf h cs).length + 1 := by rw [hs.last, wordsOf_length]; rfl
  refine ⟨?_, ?_, hs.last, .inr ?_⟩
  · rw [Seg.extend, words_push (by rw [store_pw]; omega), words_store, hctrl, hs.words, wordsOf_cons, hlast,
      set_append_right _ _ (by omega), Nat.add_sub_cancel_left, wordsOf_cons]
    simp [Chunk.add]
  · intro b hb
    rcases mem_cons.1 hb with rfl | hb
    · exact hv.add ht d
    · exact hs.valid b (mem_cons_of_mem _ hb)
  · rw [Seg.extend, push_pw (by rw [store_pw]; omega), store_pw]
    omega

/-- **One word**: the encoder follows `putWord`. -/
theorem Seg.Holds.word (hs : s.Holds cap h cs) (hcap : cap ≤ 2 ^ 32 - 4) {off d : ℕ} {s' : Seg} {u : Unit}
    (hok : segWord cap h off d s = .ok u s') : s'.Holds cap h (putWord cs (off, d)) := by
  obtain ⟨hroom, hcase⟩ := segWord_ok hok
  -- below this capacity the check of the room left does not wrap
  have hpw : s.pw + 5 ≤ cap := by
    have := hs.room
    rwa [u32_eq (by omega)] at hroom
  cases cs with
  | nil =>
    rcases hcase with ⟨⟨hne, -⟩, -⟩ | ⟨-, rfl⟩
    · exact absurd hs.last hne
    · exact hs.start hpw (by omega) off d
  | cons c cs =>
    rw [hs.continues_iff (by omega)] at hcase
    rcases hcase with ⟨ht, rfl⟩ | ⟨ht, rfl⟩
    · rw [putWord_joins ht]
      exact hs.join hpw (by omega) ht d
    · rw [putWord_starts ht]
      exact hs.start hpw (by omega) off d

/-- Splitting the newest access before its last word. -/
theorem Seg.Holds.split (hs : s.Holds cap h (c :: cs)) (hcap : cap < 2 ^ 32) (hlen : 1 < c.data.length) :
    s.split.words = wordsOf h (c.front :: cs) ++ h :: 0 :: c.back.data ∧ s.split.last = s.pw ∧
      s.split.pw = s.pw + 2 := by
  have hv := hs.valid c mem_cons_self
  have hpw := hs.pw_cons
  have hroom := hs.room
  have hlast : s.last = (wordsOf h cs).length + 1 := by rw [hs.last, wordsOf_length]; rfl
  obtain ⟨d, hd⟩ := length_eq_one_iff.1 hv.back_length
  have hdata : c.data = c.front.data ++ [d] := by rw [← hd]; exact (take_append_drop _ _).symm
  have hfl := c.front_length
  have hw := hs.words.trans (wordsOf_cons h c cs)
  -- the header of the shortened access
  have hctrl : cpeCtrlWord (hdrAddr (s.p s.last) ||| ((hdrBeats (s.p s.last) - 2) <<< 20)) =
      c.front.ctrl := by
    rw [hs.ctrl, hv.hdrAddr_eq, hv.hdrBeats_eq, or_shiftLeft_eq_add hv.addr_lt, Chunk.ctrl, hfl, Chunk.front]
    dsimp only
    rw [zero_mul, add_zero, Nat.sub_sub]
  -- the word to split off
  have hword : s.p (u32sub s.pw 1) = d := by
    have hw' : (List.range s.pw).map s.p = (wordsOf h cs ++ h :: c.ctrl :: c.front.data) ++ d :: [] := by
      rw [← Seg.words, hw, hdata]; simp
    refine eq_of_map_range hw' ?_
    rw [u32sub_eq (by omega) (by omega)]
    simp only [length_append, length_cons]
    omega
  set s1 := s.store s.last c.front.ctrl with hs1
  have hp1 : s1.pw = s.pw := rfl
  have hl1 : s1.last = s.last := rfl
  have hw1 : s1.words = wordsOf h cs ++ h :: c.front.ctrl :: (c.front.data ++ [d]) := by
    rw [hs1, words_store, hw, hlast, set_append_right _ _ (by omega), Nat.add_sub_cancel_left, hdata]
    rfl
  have hh : s1.p (u32sub s1.last 1) = h := by
    refine eq_of_map_range hw1 ?_
    rw [hl1, u32sub_eq (by omega) (by omega)]
    omega
  -- a copy of the stream header over the word
  set s2 := s1.store (u32sub s1.pw 1) h with hs2
  have hp2 : s2.pw = s.pw := rfl
  have hw2 : s2.words = wordsOf h (c.front :: cs) ++ [h] := by
    have hidx : s.pw - 1 - (wordsOf h cs).length = c.front.data.length + 2 := by omega
    rw [hs2, words_store, hw1, hp1, u32sub_eq (by omega) (by omega), set_append_right _ _ (by omega), hidx,
      wordsOf_cons]
    simp
  have hsplit : s.split = (({ s2 with last := s2.pw } : Seg).push 0).push d := by
    unfold Seg.split
    simp only [hctrl, hword]
    rw [← hs1, hh]
  set s3 := ({ s2 with last := s2.pw } : Seg) with hs3
  have hp3 : s3.pw = s.pw := rfl
  have hw3 : s3.words = s2.words := rfl
  have hp4 : (s3.push 0).pw = s.pw + 1 := by rw [push_pw (by omega), hp3]
  rw [hsplit]
  refine ⟨?_, ?_, ?_⟩
  · rw [words_push (by omega), words_push (by omega), hw3, hw2, hd]
    simp
  · rw [push_last, push_last, hs3, hp2]
  · rw [push_pw (by omega), hp4]

theorem Chunk.Valid.back_ctrl (hv : c.Valid) : c.back.ctrl = cpeCtrlWord (c.back.addr ||| (0x2 <<< 22)) := by
  rw [ack_fields hv.back.addr_lt, Chunk.ctrl, hv.back_length]
  rfl

/-- **Finishing** follows `sealLast`. -/
theorem Seg.Holds.finish (hs : s.Holds cap h cs) (hcap : cap < 2 ^ 32) :
    (rtCpeSegFinish s).2.words = wordsOf h (sealLast cs) ∧ (rtCpeSegFinish s).2.last =
      lastCtrl (sealLast cs) ∧
      (rtCpeSegFinish s).1 = (rtCpeSegFinish s).2.pw := by
  cases cs with
  | nil =>
    have hnone : s.last = RT_CPE_NONE := hs.last
    have hfin : rtCpeSegFinish s = (0, s) := by rw [rtCpeSegFinish, if_pos hnone]
    rw [hfin]
    exact ⟨hs.words, hs.last, hs.pw_eq.symm⟩
  | cons c cs =>
    have hv := hs.valid c mem_cons_self
    have hne := hs.last_ne hcap
    have hlast : s.last = (wordsOf h cs).length + 1 := by rw [hs.last, wordsOf_length]; rfl
    have hpw := hs.pw_cons
    have hb : hdrBeats (s.p s.last) = c.data.length := by rw [hs.ctrl, hv.hdrBeats_eq]
    have ha : hdrAddr (s.p s.last) = c.addr := by rw [hs.ctrl, hv.hdrAddr_eq]
    by_cases hlen : 1 < c.data.length
    · obtain ⟨hw, hl, hp⟩ := hs.split hcap hlen
      have hmask : (c.addr + 4 * (c.data.length - 1)) &&& 0xFFFFF = c.back.addr := by
        rw [show (0xFFFFF : ℕ) = 2 ^ 20 - 1 from rfl, and_mask, Nat.mod_eq_of_lt hv.end_lt]
        rfl
      have hfin : rtCpeSegFinish s = (s.split.pw, s.split.store s.split.last c.back.ctrl) := by
        unfold rtCpeSegFinish
        rw [if_neg hne]
        simp only [hb, ha, if_pos hlen, gt_iff_lt, hmask, hv.back_ctrl]
        rfl
      have hidx : s.pw = (wordsOf h (c.front :: cs)).length + 1 := by
        rw [wordsOf_cons, length_append, length_cons, length_cons, c.front_length]
        omega
      rw [hfin, sealLast_split hlen]
      refine ⟨?_, ?_, rfl⟩
      · rw [words_store, hw, hl, hidx, set_append_right _ _ (by omega), Nat.add_sub_cancel_left,
          wordsOf_cons h c.back]
        rfl
      · show s.split.last = _
        rw [hl, hidx, wordsOf_length]
        rfl
    · have hone : c.data.length = 1 := by have := hv.pos; omega
      have haddr : c.addr = c.back.addr := by rw [Chunk.back, hone]; rfl
      have hdata : c.data = c.back.data := by rw [Chunk.back, hone]; rfl
      have hfin : rtCpeSegFinish s = (s.pw, s.store s.last c.back.ctrl) := by
        unfold rtCpeSegFinish
        rw [if_neg hne]
        simp only [hb, ha, if_neg hlen, gt_iff_lt, hv.back_ctrl, ← haddr]
        rfl
      rw [hfin, sealLast_single hlen]
      refine ⟨?_, hs.last, rfl⟩
      rw [words_store, hs.words, wordsOf_cons, hlast, set_append_right _ _ (by omega),
        Nat.add_sub_cancel_left, wordsOf_cons, ← hdata]
      rfl

end Buffer

/-! ### Sequences of words -/

/-- Words written one by one to a segment of stream `sid`. -/
def segPuts (cap sid : ℕ) (ws : List (ℕ × ℕ)) : SegM Unit := ws.forM fun w => rtCpeSegWrite cap sid w.1 [w.2]

/-- Every word of `ws` finds room when written after `cs`. -/
def Fits {α : Type} (cap : ℕ) : List (Chunk α) → List (ℕ × α) → Prop
  | _, [] => True
  | cs, w :: ws => (slots cs).length + 5 ≤ cap ∧ Fits cap (putWord cs w) ws

theorem fits_append {α : Type} {cap : ℕ} (ws ws' : List (ℕ × α)) : ∀ cs : List (Chunk α),
    Fits cap cs (ws ++ ws') ↔ Fits cap cs ws ∧ Fits cap (putWords cs ws) ws' := by
  induction ws with
  | nil => exact fun cs => ⟨fun h => ⟨trivial, h⟩, And.right⟩
  | cons w ws ih =>
    intro cs
    rw [cons_append, Fits, Fits, ih, putWords_cons, and_assoc]

theorem fits_iff {α : Type} {cap : ℕ} (ws : List (ℕ × α)) : ∀ cs : List (Chunk α),
    Fits cap cs ws ↔ ∀ n < ws.length, (slots (putWords cs (ws.take n))).length + 5 ≤ cap := by
  induction ws with
  | nil => exact fun cs => iff_of_true trivial fun n hn => absurd hn (Nat.not_lt_zero n)
  | cons w ws ih =>
    intro cs
    rw [Fits, ih]
    constructor
    · rintro ⟨h0, h⟩ n hn
      cases n with
      | zero => exact h0
      | succ n => exact h n (Nat.lt_of_succ_lt_succ hn)
    · intro h
      refine ⟨h 0 (Nat.succ_pos _), fun n hn => h (n + 1) (Nat.succ_lt_succ hn)⟩

section Run

variable {cap sid : ℕ} {s s' : Seg} {cs : List (Chunk ℕ)} {u : Unit}

theorem rtCpeSegWrite_single (off d : ℕ) (s : Seg) :
    rtCpeSegWrite cap sid off [d] s = segWord cap (cpeStreamHdr sid) off d s := by
  show (segWord cap (cpeStreamHdr sid) off d >>= fun _ => pure ()) s = _
  simp only [bind, EStateM.bind]
  cases segWord cap (cpeStreamHdr sid) off d s <;> rfl

/-- A word is taken exactly while five slots are left. -/
theorem Seg.Holds.room_iff (hs : s.Holds cap (cpeStreamHdr sid) cs) (hcap : cap ≤ 2 ^ 32 - 4) (off d : ℕ) :
    (∃ u s', rtCpeSegWrite cap sid off [d] s = .ok u s') ↔ (slots cs).length + 5 ≤ cap := by
  have hroom := hs.room
  have hu : u32 (s.pw + 5) = s.pw + 5 ∨ cap < s.pw + 5 := by
    by_cases h : s.pw + 5 < 2 ^ 32
    · exact .inl (u32_eq h)
    · omega
  rw [← hs.pw_eq, rtCpeSegWrite_single]
  constructor
  · rintro ⟨u, s', hok⟩
    have h := (segWord_ok hok).1
    rwa [u32_eq (by omega)] at h
  · intro h
    unfold segWord
    have hle : ¬u32 (s.pw + 5) > cap := by rw [u32_eq (by omega)]; omega
    by_cases hc : s.continues off
    · exact ⟨(), s.extend d, bind_ok.2 ⟨s, s, rfl, by rw [if_neg hle, if_pos hc]; rfl⟩⟩
    · exact ⟨(), s.start (cpeStreamHdr sid) off d, bind_ok.2 ⟨s, s, rfl, by rw [if_neg hle, if_neg hc]; rfl⟩⟩

/-- **A sequence of words** that fits is accepted, and the encoder follows `putWords`. -/
theorem Seg.Holds.puts (hcap : cap ≤ 2 ^ 32 - 4) : ∀ (ws : List (ℕ × ℕ)) {s : Seg} {cs : List (Chunk ℕ)},
    s.Holds cap (cpeStreamHdr sid) cs → Fits cap cs ws →
    ∃ s', segPuts cap sid ws s = .ok () s' ∧ s'.Holds cap (cpeStreamHdr sid) (putWords cs ws) := by
  intro ws
  induction ws with
  | nil => exact fun hs _ => ⟨_, rfl, hs⟩
  | cons w ws ih =>
    intro s cs hs hfit
    obtain ⟨u, s1, h1⟩ := (hs.room_iff hcap w.1 w.2).2 hfit.1
    have hs1 := hs.word hcap ((rtCpeSegWrite_single w.1 w.2 s).symm.trans h1)
    obtain ⟨s2, h2, hs2⟩ := ih hs1 hfit.2
    exact ⟨s2, bind_ok.2 ⟨u, s1, h1, h2⟩, hs2⟩

end Run

end AieHlc.Packet
