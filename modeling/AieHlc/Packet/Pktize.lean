import AieHlc.Packet.Segment

/-!
# The write packetizers

Model of `rt_cpe_pktize` (`aie_ctrlpkt_encode.c`) and `__Runtime_ctrl_pktize_write`
(`aie_runtime.c`): a block of words becomes accesses of up to four words, and with
an acknowledgement the last word is kept back for a write with return. The two
differ in the parity routine only. The loop counter, the word count and the check
against the capacity are 32-bit; with more than `2^32 - 4` words to write the
counter wraps before it reaches them, so the loop has fuel.

* `pktize`: the packetizer; `cpePktize`, `runtimeCtrlPktizeWrite`: its two instances.
* `runtimePktParity_eq`: both parity routines compute the same bit.
* `pktAccs`: the accesses, as a list.
* `Accepts`: when the packetizer accepts.
* `pktizeLoop_accepts`, `pktizeLoop_rejects`, `pktizeLoop_wraps`: how its loop ends.
-/

namespace AieHlc.Packet

open List AieHlc.Word

/-- `__Runtime_pkt_parity`: the complement of the parity, by folding. -/
def runtimePktParity (v : ℕ) : ℕ :=
  let p := [16, 8, 4, 2, 1].foldl (fun p i => p ^^^ (p >>> i)) v
  if p &&& 1 ≠ 0 then 0 else 1

/-- An output buffer: the words written so far and the buffer. -/
structure Out where
  idx : ℕ
  p : ℕ → ℕ

/-- `out[idx++] = v`. -/
def Out.push (o : Out) (v : ℕ) : Out := ⟨u32 (o.idx + 1), Function.update o.p o.idx v⟩

def Out.pushes (o : Out) (vs : List ℕ) : Out := vs.foldl Out.push o

def Out.words (o : Out) : List ℕ := (range o.idx).map o.p

/-- A word of the data array; a null array reads as zeros. -/
def dataWord (data : Option (ℕ → ℕ)) (i : ℕ) : ℕ := data.elim 0 fun d => d i

@[simp] theorem dataWord_some (f : ℕ → ℕ) (i : ℕ) : dataWord (some f) i = f i :=
  by rw [dataWord, Option.elim_some]

def withParity (par : ℕ → ℕ) (w : ℕ) : ℕ := w ||| (par w <<< 31)

section Model

variable (par : ℕ → ℕ) (cap sid addr : ℕ) (data : Option (ℕ → ℕ))

/-- The words of the access at word `i` of `ps` words. -/
def chunkWords (i ps : ℕ) : List ℕ :=
  withParity par (sid &&& 0x1F) ::
    withParity par ((((ps - 1) &&& 0x3) <<< 20) ||| (u32 (addr + u32 (i * 4)) &&& 0xFFFFF)) ::
    (range ps).map fun j => dataWord data (i + j)

/-- The words of the write with return of word `i`. -/
def ackWords (ret i : ℕ) : List ℕ :=
  [withParity par (sid &&& 0x1F),
    withParity par ((u32 (addr + u32 (i * 4)) &&& 0xFFFFF) ||| (0x2 <<< 22) ||| ((ret &&& 0x1F) <<< 24)),
    dataWord data i]

/-- The loop of the packetizer, from word `i` on: `none` out of fuel, `error` for the
return with length 0 on overflow. -/
def pktizeLoop (nwrite : ℕ) : ℕ → ℕ → Out → Option (Except (ℕ → ℕ) Out)
  | 0, _, _ => none
  | fuel + 1, i, o =>
    if i < nwrite then
      let ps := min 4 (nwrite - i)
      if u32 (o.idx + 2 + ps) > cap then some (.error o.p)
      else pktizeLoop nwrite fuel (u32 (i + 4)) (o.pushes (chunkWords par sid addr data i ps))
    else some (.ok o)

/-- The words written as plain accesses. -/
def plainCount (nwords : ℕ) (lastack : Bool) : ℕ := if lastack ∧ nwords > 0 then nwords - 1 else nwords

/-- The part after the loop: the length to return, and the buffer. -/
def pktizeEnd (nwords : ℕ) (lastack : Bool) (ret : ℕ) : Except (ℕ → ℕ) Out → ℕ × (ℕ → ℕ)
  | .error p => (0, p)
  | .ok o =>
    if lastack ∧ nwords > 0 then
      if u32 (o.idx + 3) > cap then (0, o.p)
      else
        let o' := o.pushes (ackWords par sid addr data ret (nwords - 1))
        (o'.idx, o'.p)
    else (o.idx, o.p)

/-- The packetizer: the length returned and the buffer afterwards. -/
def pktize (nwords : ℕ) (lastack : Bool) (ret : ℕ) (out : ℕ → ℕ) (fuel : ℕ) : Option (ℕ × (ℕ → ℕ)) :=
  (pktizeLoop par cap sid addr data (plainCount nwords lastack) fuel 0 ⟨0, out⟩).map
    (pktizeEnd par cap sid addr data nwords lastack ret)

end Model

/-- `rt_cpe_pktize`, `cpe_pktize`. -/
def cpePktize := pktize cpeParity

/-- The words of the response that is expected: one after an acknowledgement. -/
def respWords (cap nwords : ℕ) (lastack : Bool) : Except (ℕ → ℕ) Out → ℕ
  | .error _ => 0
  | .ok o => if (lastack ∧ nwords > 0) ∧ ¬u32 (o.idx + 3) > cap then 1 else 0

/-- `__Runtime_ctrl_pktize_write`: the length, the buffer and `*resp_words_out`. -/
def runtimeCtrlPktizeWrite (cap sid addr : ℕ) (data : Option (ℕ → ℕ)) (nwords : ℕ) (lastack : Bool) (ret : ℕ)
    (out : ℕ → ℕ) (fuel : ℕ) : Option ((ℕ × (ℕ → ℕ)) × ℕ) :=
  (pktizeLoop runtimePktParity cap sid addr data (plainCount nwords lastack) fuel 0 ⟨0, out⟩).map fun r =>
    (pktizeEnd runtimePktParity cap sid addr data nwords lastack ret r, respWords cap nwords lastack r)

/-- **The two parity routines agree.** -/
theorem runtimePktParity_eq (v : ℕ) : runtimePktParity v = cpeParity v := by
  obtain ⟨v1, h1⟩ : ∃ v1, v1 = v ^^^ (v >>> 16) := ⟨_, rfl⟩
  obtain ⟨v2, h2⟩ : ∃ v2, v2 = v1 ^^^ (v1 >>> 8) := ⟨_, rfl⟩
  obtain ⟨v3, h3⟩ : ∃ v3, v3 = v2 ^^^ (v2 >>> 4) := ⟨_, rfl⟩
  obtain ⟨v4, h4⟩ : ∃ v4, v4 = v3 ^^^ (v3 >>> 2) := ⟨_, rfl⟩
  obtain ⟨v5, h5⟩ : ∃ v5, v5 = v4 ^^^ (v4 >>> 1) := ⟨_, rfl⟩
  have hfold : runtimePktParity v = if v5 &&& 1 ≠ 0 then 0 else 1 := by rw [h5, h4, h3, h2, h1]; rfl
  have hpar : parity32 v = (range 1).countP (fun i => v5.testBit i) % 2 := by
    rw [h5, ← parity_fold v4 1, h4, ← parity_fold v3 2, h3, ← parity_fold v2 4, h2, ← parity_fold v1 8, h1,
      ← parity_fold v 16]
    rfl
  have hone : (range 1).countP (fun i => v5.testBit i) = if v5.testBit 0 then 1 else 0 :=
    countP_singleton
  rw [hfold, cpeParity, hpar, hone, Nat.and_one_is_mod, Nat.testBit_zero]
  rcases Nat.mod_two_eq_zero_or_one v5 with h | h <;> simp [h]

/-- **Both packetizers return the same length and the same buffer.** -/
theorem runtimeCtrlPktizeWrite_eq (cap sid addr : ℕ) (data : Option (ℕ → ℕ)) (nwords : ℕ)
    (lastack : Bool) (ret : ℕ) (out : ℕ → ℕ) (fuel : ℕ) :
    (runtimeCtrlPktizeWrite cap sid addr data nwords lastack ret out fuel).map Prod.fst =
      cpePktize cap sid addr data nwords lastack ret out fuel := by
  rw [runtimeCtrlPktizeWrite, cpePktize, pktize, Option.map_map, funext runtimePktParity_eq]
  rfl

/-! ### The accesses -/

/-- An access of one word that asks for a return with id `ret`. -/
def mkAck (stream ret addr d : ℕ) : Access :=
  ⟨stream, cpeCtrlWord (addr + 0 * 2 ^ 20 + 2 * 2 ^ 22 + ret * 2 ^ 24), [d]⟩

def hdrRet (w : ℕ) : ℕ := (w >>> 24) &&& 0x1F

/-- Number of accesses of `n` words. -/
def chunkCount (n : ℕ) : ℕ := (n + 3) / 4

section Accesses

variable (h addr : ℕ) (data : Option (ℕ → ℕ))

/-- The access of chunk `c` of `n` words. -/
def chunkAccess (n c : ℕ) : Access :=
  mkAccess h 0 ((addr + 16 * c) % 2 ^ 20) ((range (min 4 (n - 4 * c))).map fun j => dataWord data (4 * c + j))

/-- The accesses of the first `c` chunks of `n` words. -/
def plainAccs (n c : ℕ) : List Access := (range c).map (chunkAccess h addr data n)

def pktAccs (nwords : ℕ) (lastack : Bool) (ret : ℕ) : List Access :=
  plainAccs h addr data (plainCount nwords lastack) (chunkCount (plainCount nwords lastack)) ++
    if lastack ∧ nwords > 0 then
      [mkAck h (ret % 32) ((addr + 4 * (nwords - 1)) % 2 ^ 20) (dataWord data (nwords - 1))]
    else []

/-- Words of the first `c` accesses of `n` words. -/
def lenUpTo (n c : ℕ) : ℕ := min (4 * c) n + 2 * c

def pktLen (nwords : ℕ) (lastack : Bool) : ℕ :=
  lenUpTo (plainCount nwords lastack) (chunkCount (plainCount nwords lastack)) +
    if lastack ∧ nwords > 0 then 3 else 0

end Accesses

/-- Every 32-bit check against the capacity passes. -/
def Accepts (cap nwords : ℕ) (lastack : Bool) : Prop :=
  (∀ c < chunkCount (plainCount nwords lastack), u32 (lenUpTo (plainCount nwords lastack) (c + 1)) ≤ cap) ∧
    (lastack ∧ nwords > 0 → u32 (pktLen nwords lastack) ≤ cap)

theorem words_out_push {o : Out} (h : o.idx + 1 < 2 ^ 32) (v : ℕ) : (o.push v).words = o.words ++ [v] := by
  rw [Out.push, Out.words, u32_eq h]
  exact map_range_update_last _ _ _

theorem pushes_idx (vs : List ℕ) :
    ∀ o : Out, o.idx < 2 ^ 32 → (o.pushes vs).idx = u32 (o.idx + vs.length) := by
  induction vs with
  | nil => exact fun o h => (u32_eq h).symm
  | cons v vs ih =>
    intro o h
    have hlt : (o.push v).idx < 2 ^ 32 := Nat.mod_lt _ (by decide)
    rw [show o.pushes (v :: vs) = (o.push v).pushes vs from rfl, ih _ hlt, length_cons]
    show u32 (u32 (o.idx + 1) + vs.length) = _
    unfold u32
    omega

theorem pushes_words (vs : List ℕ) : ∀ o : Out, o.idx + vs.length < 2 ^ 32 →
    (o.pushes vs).words = o.words ++ vs := by
  induction vs with
  | nil => exact fun o _ => (append_nil _).symm
  | cons v vs ih =>
    intro o h
    rw [length_cons] at h
    have hidx : (o.push v).idx = o.idx + 1 := u32_eq (by omega)
    rw [show o.pushes (v :: vs) = (o.push v).pushes vs from rfl, ih _ (by omega), words_out_push (by omega),
      append_assoc, singleton_append]

section Loop

variable {cap sid addr : ℕ} {data : Option (ℕ → ℕ)} {n c fuel : ℕ} {o : Out}

theorem addrField_eq (addr i : ℕ) : u32 (addr + u32 (i * 4)) &&& 0xFFFFF = (addr + 4 * i) % 2 ^ 20 := by
  rw [show (0xFFFFF : ℕ) = 2 ^ 20 - 1 from rfl, and_mask]
  unfold u32
  omega

theorem chunkCount_iff : c < chunkCount n ↔ 4 * c < n := by
  unfold chunkCount
  omega

theorem chunkAccess_words : chunkWords cpeParity sid addr data (4 * c) (min 4 (n - 4 * c)) =
    (chunkAccess (cpeStreamHdr sid) addr data n c).words := by
  have hps : min 4 (n - 4 * c) - 1 < 4 := by omega
  have hlen : ((range (min 4 (n - 4 * c))).map fun j => dataWord data (4 * c + j)).length =
      min 4 (n - 4 * c) := by rw [length_map, length_range]
  have hand : (min 4 (n - 4 * c) - 1) &&& 0x3 = min 4 (n - 4 * c) - 1 := by
    rw [show (0x3 : ℕ) = 2 ^ 2 - 1 from rfl, and_mask]
    exact Nat.mod_eq_of_lt hps
  have hmod : (addr + 4 * (4 * c)) % 2 ^ 20 < 2 ^ 20 := Nat.mod_lt _ (by decide)
  have hctrl : withParity cpeParity ((((min 4 (n - 4 * c) - 1) &&& 0x3) <<< 20) |||
      (u32 (addr + u32 (4 * c * 4)) &&& 0xFFFFF)) = (chunkAccess (cpeStreamHdr sid) addr data n c).ctrl := by
    rw [chunkAccess, mkAccess_ctrl, hlen, addrField_eq, hand, Nat.lor_comm, or_shiftLeft_eq_add hmod,
      ← mul_assoc]
    rfl
  rw [chunkWords, hctrl]
  rfl

theorem chunkAccess_length :
    (chunkAccess (cpeStreamHdr sid) addr data n c).words.length = min 4 (n - 4 * c) + 2 := by
  simp [chunkAccess, mkAccess, Access.words]

theorem lenUpTo_succ (hc : c < chunkCount n) : lenUpTo n (c + 1) = lenUpTo n c + (min 4 (n - 4 * c) + 2) := by
  rw [chunkCount_iff] at hc
  unfold lenUpTo
  omega

theorem pktizeLoop_step (hn : n ≤ 2 ^ 32 - 4) (hc : c < chunkCount n) (ho : o.idx = u32 (lenUpTo n c)) :
    pktizeLoop cpeParity cap sid addr data n (fuel + 1) (4 * c) o =
      if u32 (lenUpTo n (c + 1)) > cap then some (.error o.p)
      else pktizeLoop cpeParity cap sid addr data n fuel (4 * (c + 1))
        (o.pushes (chunkAccess (cpeStreamHdr sid) addr data n c).words) := by
  have hlt := chunkCount_iff.1 hc
  have hsum : u32 (o.idx + 2 + min 4 (n - 4 * c)) = u32 (lenUpTo n (c + 1)) := by
    rw [ho, lenUpTo_succ hc]
    unfold u32
    omega
  have hnext : u32 (4 * c + 4) = 4 * (c + 1) := by rw [u32_eq (by omega)]; omega
  rw [pktizeLoop, if_pos hlt]
  dsimp only
  rw [hsum, hnext, chunkAccess_words]

theorem pktizeLoop_done (hc : chunkCount n ≤ c) :
    pktizeLoop cpeParity cap sid addr data n (fuel + 1) (4 * c) o = some (.ok o) := by
  have hle : ¬4 * c < n := fun h => absurd (chunkCount_iff.2 h) (not_lt.2 hc)
  rw [pktizeLoop, if_neg hle]

theorem chunk_idx (hc : c < chunkCount n) (ho : o.idx = u32 (lenUpTo n c)) :
    (o.pushes (chunkAccess (cpeStreamHdr sid) addr data n c).words).idx = u32 (lenUpTo n (c + 1)) := by
  have hlt : o.idx < 2 ^ 32 := by rw [ho]; exact Nat.mod_lt _ (by decide)
  rw [pushes_idx _ _ hlt, chunkAccess_length, lenUpTo_succ hc, ho]
  unfold u32
  omega

/-- **The loop accepts** when every check passes, and has then written the accesses, as
long as their words fit 32 bits. -/
theorem pktizeLoop_accepts (hn : n ≤ 2 ^ 32 - 4) :
    ∀ (m c fuel : ℕ) (o : Out), c + m = chunkCount n → m < fuel →
    o.idx = u32 (lenUpTo n c) → (∀ j, c ≤ j → j < chunkCount n → u32 (lenUpTo n (j + 1)) ≤ cap) →
    ∃ o', pktizeLoop cpeParity cap sid addr data n fuel (4 * c) o = some (.ok o') ∧
      o'.idx = u32 (lenUpTo n (chunkCount n)) ∧
      (lenUpTo n (chunkCount n) < 2 ^ 32 →
        o.words = (plainAccs (cpeStreamHdr sid) addr data n c).flatMap Access.words →
        o'.words = (plainAccs (cpeStreamHdr sid) addr data n (chunkCount n)).flatMap Access.words) := by
  intro m
  induction m with
  | zero =>
    intro c fuel o hc hfuel ho _
    obtain ⟨fuel, rfl⟩ := Nat.exists_eq_succ_of_ne_zero (ne_of_gt hfuel)
    have hc' : c = chunkCount n := hc
    subst hc'
    exact ⟨o, pktizeLoop_done le_rfl, ho, fun _ hw => hw⟩
  | succ m ih =>
    intro c fuel o hc hfuel ho hpass
    obtain ⟨fuel, rfl⟩ := Nat.exists_eq_succ_of_ne_zero (ne_of_gt (lt_of_le_of_lt (Nat.zero_le _) hfuel))
    have hlt : c < chunkCount n := by omega
    have hroom := hpass c le_rfl hlt
    obtain ⟨o', hrun, hidx, hwords⟩ := ih (c + 1) fuel _ (by omega) (by omega)
      (@chunk_idx sid addr data n c o hlt ho) fun j hj hj' => hpass j (by omega) hj'
    refine ⟨o', ?_, hidx, fun hfit hw => hwords hfit ?_⟩
    · rw [pktizeLoop_step hn hlt ho, if_neg (by omega)]
      exact hrun
    · -- no index has wrapped so far: the total is below `2 ^ 32`
      have hmono : lenUpTo n (c + 1) ≤ lenUpTo n (chunkCount n) := by unfold lenUpTo; omega
      have hstep := lenUpTo_succ hlt
      have hlen := @chunkAccess_length sid addr data n c
      rw [u32_eq (by omega)] at ho
      rw [pushes_words _ _ (by omega), hw, plainAccs, plainAccs, range_succ, map_append,
        flatMap_append, map_singleton, flatMap_singleton]

/-- **The loop reports overflow** when a check fails. -/
theorem pktizeLoop_rejects (hn : n ≤ 2 ^ 32 - 4) :
    ∀ (m c fuel : ℕ) (o : Out), c + m = chunkCount n → m < fuel →
    o.idx = u32 (lenUpTo n c) → ¬(∀ j, c ≤ j → j < chunkCount n → u32 (lenUpTo n (j + 1)) ≤ cap) →
    ∃ p, pktizeLoop cpeParity cap sid addr data n fuel (4 * c) o = some (.error p) := by
  intro m
  induction m with
  | zero =>
    intro c fuel o hc _ _ hfail
    exact absurd (fun j hj hj' => absurd hj' (by omega)) hfail
  | succ m ih =>
    intro c fuel o hc hfuel ho hfail
    obtain ⟨fuel, rfl⟩ := Nat.exists_eq_succ_of_ne_zero (ne_of_gt (lt_of_le_of_lt (Nat.zero_le _) hfuel))
    have hlt : c < chunkCount n := by omega
    rw [pktizeLoop_step hn hlt ho]
    by_cases hroom : u32 (lenUpTo n (c + 1)) ≤ cap
    · rw [if_neg (by omega)]
      refine ih (c + 1) fuel _ (by omega) (by omega) (chunk_idx hlt ho) fun hpass => hfail ?_
      intro j hj hj'
      rcases Nat.eq_or_lt_of_le hj with rfl | hj
      · exact hroom
      · exact hpass j hj hj'
    · exact ⟨o.p, if_pos (by omega)⟩

/-- With more than `2^32 - 4` words the counter wraps below their number for ever: the
loop never ends by itself. -/
theorem pktizeLoop_wraps (hn : 2 ^ 32 - 4 < n) (par : ℕ → ℕ) :
    ∀ (fuel i : ℕ) (o o' : Out), i % 4 = 0 → i < 2 ^ 32 →
    pktizeLoop par cap sid addr data n fuel i o ≠ some (.ok o') := by
  intro fuel
  induction fuel with
  | zero => exact fun i o o' _ _ => nofun
  | succ fuel ih =>
    intro i o o' hi hlt
    rw [pktizeLoop, if_pos (by omega)]
    dsimp only
    split
    · exact nofun
    · exact ih _ _ _ (by unfold u32; omega) (Nat.mod_lt _ (by decide))

end Loop

end AieHlc.Packet
