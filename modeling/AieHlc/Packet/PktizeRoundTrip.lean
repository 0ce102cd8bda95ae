import AieHlc.Packet.Pktize

/-!
# Reading packetized writes back

Model of `__Runtime_ctrl_parse_pkt_hdr` and `__Runtime_ctrl_parse_ctrl_hdr`, and what
the words of the write packetizers mean to them.

* `parityOk_word`: the parsers accept every header of the packetizers.
* `pktAccs_decoded`: the accesses carry the words of the block, each once and in order.
* `cpePktize_accepts`, `cpePktize_rejects`, `cpePktize_endless`: the result in every case.
* `roundsLen`, `checks_pass_iff`: with more than `2^32 - 4` plain words the loop starts over
  again and again, and ends only if a check against the capacity fails.
* `pktize_roundTrips_iff`: **the round trip holds** unless the number of words wraps
  32 bits inside an accepted call, or the call never returns.
-/

namespace AieHlc.Packet

open List AieHlc.Word

/-! ### The parsers -/

/-- The parity test of both parsers. -/
def parityOk (w : ℕ) : Bool := runtimePktParity (w &&& 0x7FFFFFFF) = (w >>> 31) &&& 0x1

/-- The fields of a control header. -/
structure CtrlHdr where
  addr : ℕ
  op : ℕ
  beats : ℕ
  retSid : ℕ
  ok : Bool

/-- `__Runtime_ctrl_parse_ctrl_hdr`. -/
def runtimeCtrlParseCtrlHdr (w : ℕ) : CtrlHdr := ⟨hdrAddr w, hdrOp w, hdrBeats w, hdrRet w, parityOk w⟩

/-- The fields of a stream header. -/
structure PktHdr where
  id : ℕ
  type : ℕ
  srcRow : ℕ
  srcCol : ℕ
  ok : Bool

/-- `__Runtime_ctrl_parse_pkt_hdr`. -/
def runtimeCtrlParsePktHdr (w : ℕ) : PktHdr :=
  ⟨w &&& 0x1F, (w >>> 12) &&& 0x7, (w >>> 16) &&& 0x1F, (w >>> 21) &&& 0x7F, parityOk w⟩

/-- Accesses that carry the words of a block: headers of good parity and the stream id
`sid`, one write for each word in order, and a write with return exactly on the last
word, exactly when `lastack` is set. -/
structure Decoded (sid addr : ℕ) (data : Option (ℕ → ℕ)) (nwords : ℕ) (lastack : Bool) (ret : ℕ)
    (accs : List Access) : Prop where
  stream : ∀ a ∈ accs, (runtimeCtrlParsePktHdr a.stream).ok ∧ (runtimeCtrlParsePktHdr a.stream).id = sid % 32
  ctrl : ∀ a ∈ accs, (runtimeCtrlParseCtrlHdr a.ctrl).ok
  writes : accs.flatMap Access.writes = (range nwords).map fun i => ((addr + 4 * i) % 2 ^ 20, dataWord data i)
  plain : ∀ a ∈ accs.dropLast, (runtimeCtrlParseCtrlHdr a.ctrl).op = 0
  last : ∀ a ∈ accs.getLast?,
    if lastack then (runtimeCtrlParseCtrlHdr a.ctrl).op = 2 ∧ (runtimeCtrlParseCtrlHdr a.ctrl).beats = 1 ∧
      (runtimeCtrlParseCtrlHdr a.ctrl).retSid = ret % 32
    else (runtimeCtrlParseCtrlHdr a.ctrl).op = 0

theorem cpeParity_lt (c : ℕ) : cpeParity c < 2 := by
  unfold cpeParity
  omega

/-- **The parsers accept a header with its parity bit.** -/
theorem parityOk_word {c : ℕ} (hc : c < 2 ^ 31) : parityOk (cpeCtrlWord c) = true := by
  have hbit := cpeParity_lt c
  have hlow : (c + cpeParity c * 2 ^ 31) % 2 ^ 31 = c := by omega
  have htop : (c + cpeParity c * 2 ^ 31) / 2 ^ 31 % 2 = cpeParity c := by omega
  rw [parityOk, cpeCtrlWord_eq hc, show (0x7FFFFFFF : ℕ) = 2 ^ 31 - 1 from rfl, and_mask, hlow,
    Nat.shiftRight_eq_div_pow, Nat.and_one_is_mod, htop, runtimePktParity_eq, decide_eq_true rfl]

theorem streamHdr_lt (sid : ℕ) : sid &&& 0x1F < 2 ^ 31 := by
  rw [show (0x1F : ℕ) = 2 ^ 5 - 1 from rfl, and_mask]
  omega

theorem parsePktHdr_stream (sid : ℕ) : (runtimeCtrlParsePktHdr (cpeStreamHdr sid)).ok ∧
    (runtimeCtrlParsePktHdr (cpeStreamHdr sid)).id = sid % 32 := by
  refine ⟨parityOk_word (streamHdr_lt sid), ?_⟩
  show cpeCtrlWord (sid &&& 0x1F) &&& 0x1F = sid % 32
  rw [cpeCtrlWord_eq (streamHdr_lt sid), show (0x1F : ℕ) = 2 ^ 5 - 1 from rfl, and_mask, and_mask]
  omega

/-! ### The accesses of the packetizer -/

section Ack

variable {h ret addr d : ℕ} (ha : addr < 2 ^ 20) (hr : ret < 32)

include ha hr

theorem mkAck_ctrl : (mkAck h ret addr d).ctrl = addr + 2 * 2 ^ 22 + ret * 2 ^ 24 +
    cpeParity (addr + 0 * 2 ^ 20 + 2 * 2 ^ 22 + ret * 2 ^ 24) * 2 ^ 31 := by
  have hlt : addr + 0 * 2 ^ 20 + 2 * 2 ^ 22 + ret * 2 ^ 24 < 2 ^ 31 := by omega
  rw [mkAck, cpeCtrlWord_eq hlt, Nat.zero_mul, Nat.add_zero]

theorem mkAck_fields : hdrAddr (mkAck h ret addr d).ctrl = addr ∧ hdrBeats (mkAck h ret addr d).ctrl = 1 ∧
    hdrOp (mkAck h ret addr d).ctrl = 2 ∧ hdrRet (mkAck h ret addr d).ctrl = ret := by
  rw [mkAck_ctrl ha hr, hdrAddr_eq, hdrBeats_eq, hdrOp_eq, hdrRet, show (0x1F : ℕ) = 2 ^ 5 - 1
    from rfl, and_mask,
    Nat.shiftRight_eq_div_pow]
  omega

theorem mkAck_writes : (mkAck h ret addr d).writes = [(addr, d)] := by
  show [((hdrAddr (mkAck h ret addr d).ctrl + 4 * 0) % 2 ^ 20, d)] = _
  rw [(mkAck_fields ha hr).1, Nat.mul_zero, Nat.add_zero, Nat.mod_eq_of_lt ha]

end Ack

section Chunk

variable {h addr : ℕ} {data : Option (ℕ → ℕ)} {n c : ℕ}

theorem chunkAccess_fields (hc : c < chunkCount n) :
    hdrAddr (chunkAccess h addr data n c).ctrl = (addr + 16 * c) % 2 ^ 20 ∧
      hdrBeats (chunkAccess h addr data n c).ctrl = min 4 (n - 4 * c) ∧
      hdrOp (chunkAccess h addr data n c).ctrl = 0 ∧ parityOk (chunkAccess h addr data n c).ctrl := by
  rw [chunkCount_iff] at hc
  have hmod : (addr + 16 * c) % 2 ^ 20 < 2 ^ 20 := Nat.mod_lt _ (by decide)
  have hps : min 4 (n - 4 * c) - 1 < 4 := by omega
  have hctrl : (chunkAccess h addr data n c).ctrl =
      cpeCtrlWord ((addr + 16 * c) % 2 ^ 20 + (min 4 (n - 4 * c) - 1) * 2 ^ 20 + 0 * 2 ^ 22) := by
    rw [chunkAccess, mkAccess, length_map, length_range]
  have hbeats := hdrBeats_ctrlWord hmod hps (by decide : 0 < 4)
  rw [hctrl]
  refine ⟨hdrAddr_ctrlWord hmod hps (by decide), ?_, hdrOp_ctrlWord hmod hps (by decide),
    parityOk_word (ctrl_lt hmod hps (by decide))⟩
  rw [hbeats]
  omega

theorem chunkAccess_writes (hc : c < chunkCount n) : (chunkAccess h addr data n c).writes =
    (range (min 4 (n - 4 * c))).map fun j => ((addr + 4 * (4 * c + j)) % 2 ^ 20,
      dataWord data (4 * c + j)) := by
  rw [Access.writes, (chunkAccess_fields hc).1]
  refine ext_getElem (by simp [chunkAccess, mkAccess]) fun j hj hj' => ?_
  simp only [chunkAccess, mkAccess, getElem_mapIdx, getElem_map, getElem_range, Prod.mk.injEq,
    and_true]
  omega

theorem plainAccs_writes : ∀ c ≤ chunkCount n, (plainAccs h addr data n c).flatMap Access.writes =
    (range (min (4 * c) n)).map fun i => ((addr + 4 * i) % 2 ^ 20, dataWord data i) := by
  intro c
  induction c with
  | zero => intro _; rw [Nat.mul_zero, Nat.zero_min]; rfl
  | succ c ih =>
    intro hc
    have hlt := chunkCount_iff.1 hc
    have hmin : min (4 * (c + 1)) n = 4 * c + min 4 (n - 4 * c) := by omega
    have hmin' : min (4 * c) n = 4 * c := by omega
    rw [plainAccs, range_succ, map_append, flatMap_append, map_singleton,
      flatMap_singleton, ← plainAccs, ih (by omega), chunkAccess_writes hc, hmin, hmin', range_add,
      map_append, map_map]
    rfl

theorem mem_plainAccs {a : Access} (ha : a ∈ plainAccs h addr data n (chunkCount n)) :
    ∃ c < chunkCount n, a = chunkAccess h addr data n c := by
  obtain ⟨c, hc, rfl⟩ := mem_map.1 ha
  exact ⟨c, mem_range.1 hc, rfl⟩

theorem plainAccs_decoded (sid ret : ℕ) :
    Decoded sid addr data n false ret (plainAccs (cpeStreamHdr sid) addr data n (chunkCount n)) := by
  have hop : ∀ a ∈ plainAccs (cpeStreamHdr sid) addr data n (chunkCount n),
      (runtimeCtrlParseCtrlHdr a.ctrl).op = 0 := by
    intro a ha
    obtain ⟨c, hc, rfl⟩ := mem_plainAccs ha
    exact (chunkAccess_fields hc).2.2.1
  have hall : min (4 * chunkCount n) n = n := by unfold chunkCount; omega
  refine ⟨fun a ha => ?_, fun a ha => ?_, ?_, fun a ha => hop a ((dropLast_sublist _).mem ha), fun a ha => ?_⟩
  · obtain ⟨c, _, rfl⟩ := mem_plainAccs ha
    exact parsePktHdr_stream sid
  · obtain ⟨c, hc, rfl⟩ := mem_plainAccs ha
    exact (chunkAccess_fields hc).2.2.2
  · rw [plainAccs_writes _ le_rfl, hall]
  · exact hop a (mem_of_getLast? ha)

end Chunk

/-! ### The packetizer's result -/

section Result

variable {cap sid addr : ℕ} {data : Option (ℕ → ℕ)} {nwords : ℕ} {lastack : Bool} {ret : ℕ}
    {out : ℕ → ℕ} {fuel : ℕ}

theorem ackWords_eq : ackWords cpeParity sid addr data ret (nwords - 1) =
    (mkAck (cpeStreamHdr sid) (ret % 32) ((addr + 4 * (nwords - 1)) % 2 ^ 20)
      (dataWord data (nwords - 1))).words := by
  have hmod : (addr + 4 * (nwords - 1)) % 2 ^ 20 < 2 ^ 20 := Nat.mod_lt _ (by decide)
  have hor : (addr + 4 * (nwords - 1)) % 2 ^ 20 ||| (0x2 <<< 22) ||| ((ret &&& 0x1F) <<< 24) =
      (addr + 4 * (nwords - 1)) % 2 ^ 20 + 0 * 2 ^ 20 + 2 * 2 ^ 22 + ret % 32 * 2 ^ 24 := by
    rw [or_shiftLeft_eq_add (by omega : (addr + 4 * (nwords - 1)) % 2 ^ 20 < 2 ^ 22),
      or_shiftLeft_eq_add (by omega), show (0x1F : ℕ) = 2 ^ 5 - 1 from rfl, and_mask]
    omega
  rw [ackWords, addrField_eq, hor]
  rfl

theorem pktizeLoop_mono {par : ℕ → ℕ} {n : ℕ} (k : ℕ) : ∀ (fuel i : ℕ) (o : Out) (r : Except (ℕ → ℕ) Out),
    pktizeLoop par cap sid addr data n fuel i o = some r →
    pktizeLoop par cap sid addr data n (fuel + k) i o = some r := by
  intro fuel
  induction fuel with
  | zero => exact fun i o r => nofun
  | succ fuel ih =>
    intro i o r
    rw [Nat.succ_add, pktizeLoop, pktizeLoop]
    dsimp only
    split
    · split
      · exact id
      · exact ih _ _ r
    · exact id

theorem cpePktize_mono (k : ℕ) {r : ℕ × (ℕ → ℕ)}
    (h : cpePktize cap sid addr data nwords lastack ret out fuel = some r) :
    cpePktize cap sid addr data nwords lastack ret out (fuel + k) = some r := by
  obtain ⟨x, hx, hr⟩ := Option.map_eq_some_iff.1 h
  rw [cpePktize, pktize, pktizeLoop_mono k _ _ _ _ hx, Option.map_some, hr]

theorem pktLen_ack (hack : lastack ∧ nwords > 0) : pktLen nwords lastack =
    lenUpTo (plainCount nwords lastack) (chunkCount (plainCount nwords lastack)) + 3 := by
  rw [pktLen, if_pos hack]

theorem pktLen_plain (hack : ¬(lastack ∧ nwords > 0)) : pktLen nwords lastack =
    lenUpTo (plainCount nwords lastack) (chunkCount (plainCount nwords lastack)) := by
  rw [pktLen, if_neg hack, Nat.add_zero]

/-- **An accepted call** returns the number of its words modulo `2 ^ 32`, and has
written them if that number fits. -/
theorem cpePktize_accepts (hn : plainCount nwords lastack ≤ 2 ^ 32 - 4) (hacc : Accepts cap nwords lastack)
    (hf : chunkCount (plainCount nwords lastack) < fuel) :
    ∃ p, cpePktize cap sid addr data nwords lastack ret out fuel = some (u32 (pktLen nwords lastack), p) ∧
      (pktLen nwords lastack < 2 ^ 32 → (range (pktLen nwords lastack)).map p =
        (pktAccs (cpeStreamHdr sid) addr data nwords lastack ret).flatMap Access.words) := by
  obtain ⟨o, hrun, hidx, hwords⟩ := @pktizeLoop_accepts cap sid addr data _ hn _ 0 fuel ⟨0, out⟩
    (Nat.zero_add _) hf
    (by rw [lenUpTo]; rfl) fun j _ hj => hacc.1 j hj
  rw [Nat.mul_zero] at hrun
  have hlt : o.idx < 2 ^ 32 := by rw [hidx]; exact Nat.mod_lt _ (by decide)
  rw [cpePktize, pktize, hrun, Option.map_some, pktizeEnd]
  by_cases hack : lastack ∧ nwords > 0
  · have hlen : u32 (o.idx + 3) = u32 (pktLen nwords lastack) := by
      rw [hidx, pktLen_ack hack]
      unfold u32
      omega
    have hroom : ¬u32 (o.idx + 3) > cap := by
      rw [hlen]
      exact Nat.not_lt.2 (hacc.2 hack)
    rw [if_pos hack, if_neg hroom]
    refine ⟨_, congrArg some (Prod.ext ?_ rfl), fun hfit => ?_⟩
    · rw [← hlen]
      exact pushes_idx _ o hlt
    · rw [pktLen_ack hack] at hfit
      rw [u32_eq (by omega)] at hidx
      have hlen' := pushes_idx (ackWords cpeParity sid addr data ret (nwords - 1)) o hlt
      have hpw := pushes_words (ackWords cpeParity sid addr data ret (nwords - 1)) o
        (by rw [hidx]; exact hfit)
      rw [show (ackWords cpeParity sid addr data ret (nwords - 1)).length = 3 from rfl, hidx,
        u32_eq hfit] at hlen'
      rw [Out.words, hlen', hwords (by omega) rfl, ackWords_eq] at hpw
      rw [pktLen_ack hack, ackWords_eq, hpw, pktAccs, if_pos hack, flatMap_append,
        flatMap_singleton]
  · rw [if_neg hack]
    refine ⟨o.p, congrArg some (Prod.ext ?_ rfl), fun hfit => ?_⟩
    · rw [pktLen_plain hack]
      exact hidx
    · rw [pktLen_plain hack] at hfit ⊢
      rw [u32_eq hfit] at hidx
      rw [pktAccs, if_neg hack, append_nil, ← hwords hfit rfl, Out.words, hidx]

/-- **A call that is not accepted** returns 0. -/
theorem cpePktize_rejects (hn : plainCount nwords lastack ≤ 2 ^ 32 - 4) (hacc : ¬Accepts cap nwords lastack)
    (hf : chunkCount (plainCount nwords lastack) < fuel) :
    ∃ p, cpePktize cap sid addr data nwords lastack ret out fuel = some (0, p) := by
  by_cases hloop : ∀ j, 0 ≤ j → j < chunkCount (plainCount nwords lastack) →
      u32 (lenUpTo (plainCount nwords lastack) (j + 1)) ≤ cap
  · obtain ⟨o, hrun, hidx, _⟩ := @pktizeLoop_accepts cap sid addr data _ hn _ 0 fuel ⟨0, out⟩
      (Nat.zero_add _) hf
      (by rw [lenUpTo]; rfl) hloop
    rw [Nat.mul_zero] at hrun
    rw [cpePktize, pktize, hrun, Option.map_some, pktizeEnd]
    -- the loop passes, so the check of the acknowledgement fails
    have hlast : ¬(lastack ∧ nwords > 0 → u32 (pktLen nwords lastack) ≤ cap) :=
      fun h => hacc ⟨fun c hc => hloop c (Nat.zero_le c) hc, h⟩
    obtain ⟨hack, hroom⟩ := Classical.not_imp.1 hlast
    have hlen : u32 (o.idx + 3) = u32 (pktLen nwords lastack) := by
      rw [hidx, pktLen_ack hack]
      unfold u32
      omega
    rw [if_pos hack, hlen, if_pos (Nat.lt_of_not_le hroom)]
    exact ⟨o.p, rfl⟩
  · obtain ⟨p, hrun⟩ := @pktizeLoop_rejects cap sid addr data _ hn _ 0 fuel ⟨0, out⟩ (Nat.zero_add _) hf
      (by rw [lenUpTo]; rfl) hloop
    rw [Nat.mul_zero] at hrun
    rw [cpePktize, pktize, hrun, Option.map_some, pktizeEnd]
    exact ⟨p, rfl⟩

/-- With more than `2^32 - 4` plain words no length but 0 is ever returned. -/
theorem cpePktize_endless (hn : 2 ^ 32 - 4 < plainCount nwords lastack) {len : ℕ} {p : ℕ → ℕ}
    (h : cpePktize cap sid addr data nwords lastack ret out fuel = some (len, p)) : len = 0 := by
  obtain ⟨x, hx, hr⟩ := Option.map_eq_some_iff.1 h
  cases x with
  | ok o => exact absurd hx (pktizeLoop_wraps hn cpeParity fuel 0 _ o rfl (by decide))
  | error p' => exact (congrArg Prod.fst hr).symm

end Result

/-! ### More words than the counter can reach -/

section Rounds

variable {cap sid addr : ℕ} {data : Option (ℕ → ℕ)} {n : ℕ} {o : Out}

/-- The words of the first `k` rounds of the loop over more than `2^32 - 4` words: every
`2^30` rounds the counter is back at 0, after an access of less than four words. -/
def roundsLen (n k : ℕ) : ℕ := 6 * k - (2 ^ 32 - n) * (k / 2 ^ 30)

variable (hn : 2 ^ 32 - 4 < n) (hn' : n < 2 ^ 32)

include hn hn'

theorem roundsLen_succ (k : ℕ) : roundsLen n (k + 1) = roundsLen n k + 2 + min 4 (n - u32 (4 * k)) := by
  have hcases : n = 2 ^ 32 - 1 ∨ n = 2 ^ 32 - 2 ∨ n = 2 ^ 32 - 3 := by omega
  unfold roundsLen u32
  rcases hcases with rfl | rfl | rfl <;> omega

theorem pktizeLoop_round {fuel k : ℕ} (ho : o.idx = u32 (roundsLen n k)) :
    ∃ o', o'.idx = u32 (roundsLen n (k + 1)) ∧
      pktizeLoop cpeParity cap sid addr data n (fuel + 1) (u32 (4 * k)) o =
        if u32 (roundsLen n (k + 1)) > cap then some (.error o.p)
        else pktizeLoop cpeParity cap sid addr data n fuel (u32 (4 * (k + 1))) o' := by
  have hlt : u32 (4 * k) < n := by unfold u32; omega
  have hidx : o.idx < 2 ^ 32 := by rw [ho]; exact Nat.mod_lt _ (by decide)
  have hsucc := roundsLen_succ hn hn' k
  have hnext : u32 (u32 (4 * k) + 4) = u32 (4 * (k + 1)) := by unfold u32; omega
  have hsum : u32 (o.idx + 2 + min 4 (n - u32 (4 * k))) = u32 (roundsLen n (k + 1)) := by
    rw [hsucc, ho]
    generalize roundsLen n k = w
    unfold u32
    omega
  refine ⟨o.pushes (chunkWords cpeParity sid addr data (u32 (4 * k)) (min 4 (n - u32 (4 * k)))), ?_, ?_⟩
  · rw [pushes_idx _ _ hidx, ← hsum, chunkWords, length_cons, length_cons, length_map, length_range]
    congr 1
    omega
  · rw [pktizeLoop, if_pos hlt]
    dsimp only
    rw [hsum, hnext]

/-- The loop ends in an overflow if the check of a later round fails. -/
theorem pktizeLoop_ends : ∀ (m k fuel : ℕ) (o : Out), o.idx = u32 (roundsLen n k) → m < fuel →
    u32 (roundsLen n (k + m + 1)) > cap →
    ∃ p, pktizeLoop cpeParity cap sid addr data n fuel (u32 (4 * k)) o = some (.error p) := by
  intro m
  induction m with
  | zero =>
    intro k fuel o ho hfuel hfail
    obtain ⟨fuel, rfl⟩ := Nat.exists_eq_succ_of_ne_zero (ne_of_gt hfuel)
    obtain ⟨o', _, hrun⟩ := @pktizeLoop_round cap sid addr data n o hn hn' fuel k ho
    rw [hrun, if_pos hfail]
    exact ⟨o.p, rfl⟩
  | succ m ih =>
    intro k fuel o ho hfuel hfail
    obtain ⟨fuel, rfl⟩ := Nat.exists_eq_succ_of_ne_zero (Nat.ne_zero_of_lt hfuel)
    obtain ⟨o', ho', hrun⟩ := @pktizeLoop_round cap sid addr data n o hn hn' fuel k ho
    rw [hrun]
    split
    · exact ⟨o.p, rfl⟩
    · exact ih (k + 1) fuel o' ho' (by omega) (by rwa [show k + 1 + m + 1 = k + (m + 1) + 1 by omega])

theorem pktizeLoop_endless (hpass : ∀ k, u32 (roundsLen n (k + 1)) ≤ cap) : ∀ (fuel k : ℕ) (o : Out),
    o.idx = u32 (roundsLen n k) → pktizeLoop cpeParity cap sid addr data n fuel (u32 (4 * k)) o = none := by
  intro fuel
  induction fuel with
  | zero => exact fun k o _ => rfl
  | succ fuel ih =>
    intro k o ho
    obtain ⟨o', ho', hrun⟩ := @pktizeLoop_round cap sid addr data n o hn hn' fuel k ho
    rw [hrun, if_neg (Nat.not_lt.2 (hpass k))]
    exact ih (k + 1) o' ho'

/-- **Some round's check fails** unless the capacity is the largest length, or the largest
even one where all lengths are even: over the passes the length takes that value too. -/
theorem checks_pass_iff : (∀ k, u32 (roundsLen n (k + 1)) ≤ cap) ↔ 2 ^ 32 - 2 + n % 2 ≤ cap := by
  have hcases : n = 2 ^ 32 - 1 ∨ n = 2 ^ 32 - 2 ∨ n = 2 ^ 32 - 3 := by omega
  constructor
  · -- the first round of pass 2147483655, 4 or 715827885
    intro h
    rcases hcases with rfl | rfl | rfl
    · exact h (2147483655 * 2 ^ 30)
    · exact h (4 * 2 ^ 30)
    · exact h (715827885 * 2 ^ 30)
  · intro hcap k
    refine le_trans ?_ hcap
    unfold roundsLen u32
    rcases hcases with rfl | rfl | rfl <;> omega

end Rounds

section Block

variable {sid addr : ℕ} {data : Option (ℕ → ℕ)} {nwords : ℕ} {lastack : Bool} {ret : ℕ}

/-- **The accesses carry the block.** -/
theorem pktAccs_decoded :
    Decoded sid addr data nwords lastack ret (pktAccs (cpeStreamHdr sid) addr data nwords lastack ret) := by
  by_cases hack : lastack ∧ nwords > 0
  · have hmod : (addr + 4 * (nwords - 1)) % 2 ^ 20 < 2 ^ 20 := Nat.mod_lt _ (by decide)
    have hret : ret % 32 < 32 := Nat.mod_lt _ (by decide)
    have hplain := @plainAccs_decoded addr data (nwords - 1) sid ret
    have hok := parityOk_word (show (addr + 4 * (nwords - 1)) % 2 ^ 20 + 0 * 2 ^ 20 + 2 * 2 ^ 22 +
      ret % 32 * 2 ^ 24 < 2 ^ 31 by omega)
    rw [pktAccs, plainCount, if_pos hack, if_pos hack]
    set init := plainAccs (cpeStreamHdr sid) addr data (nwords - 1) (chunkCount (nwords - 1)) with hinit
    refine ⟨fun a ha => ?_, fun a ha => ?_, ?_, fun a ha => ?_, fun a ha => ?_⟩
    · rcases mem_append.1 ha with ha | ha
      · exact hplain.stream a ha
      · rw [mem_singleton.1 ha]
        exact parsePktHdr_stream sid
    · rcases mem_append.1 ha with ha | ha
      · exact hplain.ctrl a ha
      · rw [mem_singleton.1 ha]
        exact hok
    · have hsucc : nwords = nwords - 1 + 1 := by omega
      rw [flatMap_append, hplain.writes, flatMap_singleton, mkAck_writes hmod hret]
      conv_rhs => rw [hsucc, range_succ, map_append, map_singleton]
    · rw [dropLast_concat] at ha
      obtain ⟨c, hc, rfl⟩ := mem_plainAccs ha
      exact (chunkAccess_fields hc).2.2.1
    · rw [getLast?_concat, Option.mem_some_iff] at ha
      subst ha
      obtain ⟨_, hbeats, hop, hid⟩ := @mkAck_fields (cpeStreamHdr sid) (ret % 32) _
        (dataWord data (nwords - 1))
        hmod hret
      rw [if_pos hack.1]
      exact ⟨hop, hbeats, hid⟩
  · have hcount : plainCount nwords lastack = nwords := if_neg hack
    rw [pktAccs, hcount, if_neg hack, append_nil]
    have hplain := @plainAccs_decoded addr data nwords sid ret
    cases lastack with
    | false => exact hplain
    | true =>
      -- an acknowledgement of no word: there is no access at all
      have hzero : nwords = 0 := Nat.eq_zero_of_not_pos fun h => hack ⟨rfl, h⟩
      subst hzero
      exact ⟨nofun, nofun, rfl, nofun, nofun⟩

end Block

/-! ### The round trip -/

section RoundTrip

variable {cap sid addr : ℕ} {data : Option (ℕ → ℕ)} {nwords : ℕ} {lastack : Bool} {ret : ℕ} {out : ℕ → ℕ}

theorem pktAccs_wellFormed :
    ∀ a ∈ pktAccs (cpeStreamHdr sid) addr data nwords lastack ret, a.WellFormed := by
  intro a ha
  rcases mem_append.1 ha with ha | ha
  · obtain ⟨c, hc, rfl⟩ := mem_plainAccs ha
    rw [Access.WellFormed, (chunkAccess_fields hc).2.1]
    show ((range _).map _).length = _
    rw [length_map, length_range]
  · by_cases hack : lastack ∧ nwords > 0
    · rw [if_pos hack] at ha
      rw [mem_singleton.1 ha, Access.WellFormed,
        (mkAck_fields (Nat.mod_lt _ (by decide)) (Nat.mod_lt _ (by decide))).2.1]
      rfl
    · rw [if_neg hack] at ha
      exact absurd ha not_mem_nil

theorem walkF_sound : ∀ (fuel : ℕ) (ws : List ℕ) (accs : List Access), walkF fuel ws = some accs →
    accs.flatMap Access.words = ws := by
  intro fuel
  induction fuel with
  | zero =>
    intro ws accs h
    cases ws with
    | nil => cases h; rfl
    | cons w ws => cases h
  | succ fuel ih =>
    intro ws accs h
    rcases ws with _ | ⟨w, _ | ⟨c, rest⟩⟩
    · cases h
      rfl
    · cases h
    · rw [walkF] at h
      split at h
      · cases h
      · obtain ⟨accs', hrun, rfl⟩ := Option.map_eq_some_iff.1 h
        rw [flatMap_cons, ih _ _ hrun, Access.words, cons_append, cons_append, take_append_drop]

theorem walk_writes_le {ws : List ℕ} {accs : List Access} (h : walk ws = some accs) :
    (accs.flatMap Access.writes).length ≤ ws.length := by
  rw [← walkF_sound _ _ _ h]
  clear h
  induction accs with
  | nil => exact le_rfl
  | cons a accs ih =>
    rw [flatMap_cons, flatMap_cons, length_append, length_append, Access.writes, length_mapIdx,
      Access.words, length_cons, length_cons]
    omega

variable (cap sid addr data nwords lastack ret out) in
/-- Both packetizers return, and the same; a length other than 0 comes with words that read
back as the block, and twice the words and 8 more are room enough. -/
structure RoundTrips : Prop where
  returns : ∃ fuel, (cpePktize cap sid addr data nwords lastack ret out fuel).isSome
  agree : ∀ fuel, (runtimeCtrlPktizeWrite cap sid addr data nwords lastack ret out fuel).map Prod.fst =
    cpePktize cap sid addr data nwords lastack ret out fuel
  decodes : ∀ fuel len p, cpePktize cap sid addr data nwords lastack ret out fuel = some (len, p) → len ≠ 0 →
    ∃ accs, walk ((range len).map p) = some accs ∧ Decoded sid addr data nwords lastack ret accs
  enough : 2 * nwords + 8 < 2 ^ 32 → 2 * nwords + 8 ≤ cap → ∀ fuel > chunkCount (plainCount nwords lastack),
    ∃ p, cpePktize cap sid addr data nwords lastack ret out fuel = some (pktLen nwords lastack, p)

/-- The packetizer accepts a block whose words do not fit 32 bits. -/
def LengthWraps (cap nwords : ℕ) (lastack : Bool) : Prop :=
  plainCount nwords lastack ≤ 2 ^ 32 - 4 ∧ 2 ^ 32 < pktLen nwords lastack ∧ Accepts cap nwords lastack

theorem pktLen_bounds : plainCount nwords lastack + 2 * chunkCount (plainCount nwords lastack) ≤
    pktLen nwords lastack ∧
    pktLen nwords lastack ≤ nwords + 2 * chunkCount (plainCount nwords lastack) + 2 := by
  unfold pktLen plainCount lenUpTo chunkCount
  split <;> omega

/-- The length of an accepted block that wraps leaves out words of the block. -/
theorem not_roundTrips (h : LengthWraps cap nwords lastack) :
    ¬RoundTrips cap sid addr data nwords lastack ret out := by
  obtain ⟨hn, hwrap, hacc⟩ := h
  intro hrt
  obtain ⟨p, hrun, _⟩ := @cpePktize_accepts cap sid addr data nwords lastack ret out _ hn hacc
    (Nat.lt_succ_self _)
  have hb := @pktLen_bounds nwords lastack
  have hle : nwords ≤ plainCount nwords lastack + 1 := by unfold plainCount; split <;> omega
  have hcount : 4 * chunkCount (plainCount nwords lastack) ≤ 2 ^ 32 - 4 := by unfold chunkCount; omega
  have hlen : u32 (pktLen nwords lastack) = pktLen nwords lastack - 2 ^ 32 := by unfold u32; omega
  rw [hlen] at hrun
  obtain ⟨accs, hwalk, hdec⟩ := hrt.decodes _ _ _ hrun (by omega)
  have hwrites := walk_writes_le hwalk
  rw [hdec.writes, length_map, length_map, length_range, length_range] at hwrites
  omega

/-- No check wraps while the whole length fits: acceptance is then just room. -/
theorem accepts_of_le (hfit : pktLen nwords lastack < 2 ^ 32) (hroom : pktLen nwords lastack ≤ cap) :
    Accepts cap nwords lastack := by
  refine ⟨fun c hc => ?_, fun _ => ?_⟩
  · have hle : lenUpTo (plainCount nwords lastack) (c + 1) ≤ pktLen nwords lastack := by
      unfold pktLen lenUpTo
      omega
    rw [u32_eq (by omega)]
    omega
  · rw [u32_eq hfit]
    exact hroom

theorem accepts_iff (hfit : pktLen nwords lastack < 2 ^ 32) :
    Accepts cap nwords lastack ↔ pktLen nwords lastack ≤ cap := by
  refine ⟨fun h => ?_, accepts_of_le hfit⟩
  by_cases hack : lastack ∧ nwords > 0
  · have hlast := h.2 hack
    rwa [u32_eq hfit] at hlast
  · have hlen := pktLen_plain hack
    rcases Nat.eq_zero_or_pos (chunkCount (plainCount nwords lastack)) with hzero | hpos
    · rw [hlen, hzero, lenUpTo, Nat.mul_zero, Nat.zero_min]
      exact Nat.zero_le _
    · have hlast := h.1 (chunkCount (plainCount nwords lastack) - 1) (by omega)
      rwa [Nat.sub_add_cancel hpos, ← hlen, u32_eq hfit] at hlast

theorem pktLen_room : pktLen nwords lastack ≤ 2 * nwords + 8 := by
  have hb := @pktLen_bounds nwords lastack
  have hle : plainCount nwords lastack ≤ nwords := by unfold plainCount; split <;> omega
  have hcount : 4 * chunkCount (plainCount nwords lastack) ≤ nwords + 3 := by unfold chunkCount; omega
  omega

/-- **The words of a call that returns a length** read back as the accesses of the block. -/
theorem walk_of_fits (h : ¬LengthWraps cap nwords lastack) {fuel len : ℕ} {p : ℕ → ℕ}
    (hrun : cpePktize cap sid addr data nwords lastack ret out fuel = some (len, p)) (hlen : len ≠ 0) :
    walk ((range len).map p) = some (pktAccs (cpeStreamHdr sid) addr data nwords lastack ret) := by
  have hn : plainCount nwords lastack ≤ 2 ^ 32 - 4 := by
    by_contra hn
    exact hlen (cpePktize_endless (Nat.lt_of_not_le hn) hrun)
  have hrun' := cpePktize_mono (chunkCount (plainCount nwords lastack) + 1) hrun
  have hfuel : chunkCount (plainCount nwords lastack) < fuel +
    (chunkCount (plainCount nwords lastack) + 1) := by omega
  have hacc : Accepts cap nwords lastack := by
    by_contra hacc
    obtain ⟨p', hrej⟩ := @cpePktize_rejects cap sid addr data nwords lastack ret out _ hn hacc hfuel
    have heq := Option.some.inj (hrun'.symm.trans hrej)
    exact hlen (congrArg Prod.fst heq)
  obtain ⟨p', hok, hwords⟩ := @cpePktize_accepts cap sid addr data nwords lastack ret out _ hn hacc hfuel
  have heq := Option.some.inj (hrun'.symm.trans hok)
  obtain rfl : p = p' := congrArg Prod.snd heq
  have hlen' : len = u32 (pktLen nwords lastack) := congrArg Prod.fst heq
  have hle : pktLen nwords lastack ≤ 2 ^ 32 := Nat.le_of_not_lt fun hlt => h ⟨hn, hlt, hacc⟩
  have hfit : pktLen nwords lastack < 2 ^ 32 := by
    rcases Nat.eq_or_lt_of_le hle with heq | hlt
    · rw [hlen', heq] at hlen
      exact absurd rfl hlen
    · exact hlt
  rw [u32_eq hfit] at hlen'
  rw [hlen', hwords hfit]
  exact walk_words pktAccs_wellFormed

/-- The loop never ends: it has more words to write than its counter can reach, and the
capacity is at least every length it is checked against. -/
def Endless (cap nwords : ℕ) (lastack : Bool) : Prop :=
  2 ^ 32 - 4 < plainCount nwords lastack ∧ 2 ^ 32 - 2 + plainCount nwords lastack % 2 ≤ cap

theorem not_returns (hn : nwords < 2 ^ 32) (h : Endless cap nwords lastack) (fuel : ℕ) :
    cpePktize cap sid addr data nwords lastack ret out fuel = none := by
  have hle : plainCount nwords lastack ≤ nwords := by unfold plainCount; split <;> omega
  have hpass := (checks_pass_iff h.1 (by omega)).2 h.2
  have hloop := @pktizeLoop_endless cap sid addr data _ h.1 (by omega) hpass fuel 0 ⟨0, out⟩ rfl
  rw [show u32 (4 * 0) = 0 from rfl] at hloop
  rw [cpePktize, pktize, hloop, Option.map_none]

theorem returns_of_not_endless (hn : nwords < 2 ^ 32) (h : ¬Endless cap nwords lastack) :
    ∃ fuel, (cpePktize cap sid addr data nwords lastack ret out fuel).isSome := by
  by_cases hsmall : plainCount nwords lastack ≤ 2 ^ 32 - 4
  · refine ⟨chunkCount (plainCount nwords lastack) + 1, ?_⟩
    by_cases hacc : Accepts cap nwords lastack
    · obtain ⟨p, hrun, _⟩ := @cpePktize_accepts cap sid addr data nwords lastack ret out _ hsmall hacc
        (Nat.lt_succ_self _)
      rw [hrun]
      rfl
    · obtain ⟨p, hrun⟩ := @cpePktize_rejects cap sid addr data nwords lastack ret out _ hsmall hacc
        (Nat.lt_succ_self _)
      rw [hrun]
      rfl
  · -- some check fails, in whatever pass
    have hlarge : 2 ^ 32 - 4 < plainCount nwords lastack := Nat.lt_of_not_le hsmall
    have hle : plainCount nwords lastack ≤ nwords := by unfold plainCount; split <;> omega
    have hfail : ¬∀ k, u32 (roundsLen (plainCount nwords lastack) (k + 1)) ≤ cap :=
      fun hpass => h ⟨hlarge, (checks_pass_iff hlarge (by omega)).1 hpass⟩
    obtain ⟨m, hm⟩ := not_forall.1 hfail
    obtain ⟨p, hrun⟩ := @pktizeLoop_ends cap sid addr data _ hlarge (by omega) m 0 (m + 1) ⟨0, out⟩ rfl
      (Nat.lt_succ_self m) (by rw [zero_add]; omega)
    rw [show u32 (4 * 0) = 0 from rfl] at hrun
    refine ⟨m + 1, ?_⟩
    rw [cpePktize, pktize, hrun]
    rfl

/-- **The packetizers and the parsers are inverse** to each other for every block, unless
its words are more than `2 ^ 32` and every wrapped check lets them pass, or the call never
returns. -/
theorem pktize_roundTrips_iff (hn : nwords < 2 ^ 32) : RoundTrips cap sid addr data nwords lastack ret out ↔
    ¬LengthWraps cap nwords lastack ∧ ¬Endless cap nwords lastack := by
  constructor
  · intro hrt
    refine ⟨fun hwrap => not_roundTrips hwrap hrt, fun hend => ?_⟩
    obtain ⟨fuel, hsome⟩ := hrt.returns
    rw [not_returns hn hend] at hsome
    exact nomatch hsome
  · rintro ⟨h, hend⟩
    refine ⟨returns_of_not_endless hn hend, fun fuel => runtimeCtrlPktizeWrite_eq ..,
      fun fuel len p hrun hlen => ⟨_, walk_of_fits h hrun hlen, pktAccs_decoded⟩, ?_⟩
    intro hfits hcap fuel hfuel
    have hroom := @pktLen_room nwords lastack
    have hsmall : plainCount nwords lastack ≤ 2 ^ 32 - 4 := by unfold plainCount; split <;> omega
    obtain ⟨p, hrun, _⟩ := @cpePktize_accepts cap sid addr data nwords lastack ret out _ hsmall
      (accepts_of_le (by omega) (by omega)) hfuel
    rw [u32_eq (by omega)] at hrun
    exact ⟨p, hrun⟩

/-- Four words in a buffer for six. -/
theorem pktize_roundTrips_four : RoundTrips 6 0 4 none 4 false 0 (fun _ => 0) :=
  (pktize_roundTrips_iff (by decide)).2 ⟨fun h => absurd h.2.1 (by decide), fun h => absurd h.1 (by decide)⟩

/-- The largest capacity accepts a block of `2^32 - 4` zeros and returns a length of
`2^31 - 6`. -/
theorem pktize_wraps_zeros :
    ¬RoundTrips (2 ^ 32 - 1) 0 0 none (2 ^ 32 - 4) false 0 (fun _ => 0) := by
  apply not_roundTrips
  refine ⟨by decide, by decide, fun c _ => ?_, fun h => absurd h.1 (by decide)⟩
  exact Nat.le_pred_of_lt (Nat.mod_lt _ (by decide))

end RoundTrip

/-! ### Packets after packets -/

/-- The buffer with `q` in place of what follows the words written so far. -/
def Out.splice (o : Out) (q : ℕ → ℕ) : ℕ → ℕ := fun j => if j < o.idx then o.p j else q (j - o.idx)

/-- The packetizer at the end of the words written so far: `pktize(out + idx, cap - idx, ..)`.
Every caller has fewer than `2^32 - 4` words, so the fuel is enough. -/
def pktizeAt (par : ℕ → ℕ) (cap sid addr : ℕ) (data : Option (ℕ → ℕ)) (nwords : ℕ) (lastack : Bool) (ret : ℕ)
    (o : Out) : ℕ × (ℕ → ℕ) :=
  match pktize par (cap - o.idx) sid addr data nwords lastack ret (fun j => o.p (o.idx + j)) (nwords + 1) with
  | some (n, q) => (n, o.splice q)
  | none => (0, o.p)

section Append

variable {cap sid addr : ℕ} {data : Option (ℕ → ℕ)} {nwords : ℕ} {lastack : Bool} {ret : ℕ} {o : Out}

theorem splice_words (o : Out) (q : ℕ → ℕ) (n : ℕ) :
    Out.words ⟨o.idx + n, o.splice q⟩ = o.words ++ (range n).map q := by
  rw [Out.words, range_add, map_append, map_map]
  congr 1
  · refine map_congr_left fun j hj => ?_
    exact if_pos (mem_range.1 hj)
  · refine map_congr_left fun j _ => ?_
    have hge : ¬o.idx + j < o.idx := by omega
    show o.splice q (o.idx + j) = q j
    rw [Out.splice, if_neg hge, Nat.add_sub_cancel_left]

theorem chunkCount_plain_lt : chunkCount (plainCount nwords lastack) < nwords + 1 := by
  unfold chunkCount plainCount
  split <;> omega

section

variable (hfit : pktLen nwords lastack < 2 ^ 32)

include hfit

theorem plainCount_small : plainCount nwords lastack ≤ 2 ^ 32 - 4 := by
  have hb := @pktLen_bounds nwords lastack
  unfold chunkCount at hb
  omega

/-- **Packets that fit are appended.** -/
theorem pktizeAt_fits (hroom : o.idx + pktLen nwords lastack ≤ cap) :
    ∃ p, pktizeAt cpeParity cap sid addr data nwords lastack ret o = (pktLen nwords lastack, p) ∧
      Out.words ⟨o.idx + pktLen nwords lastack, p⟩ =
        o.words ++ (pktAccs (cpeStreamHdr sid) addr data nwords lastack ret).flatMap Access.words := by
  obtain ⟨q, hrun, hwords⟩ := @cpePktize_accepts (cap - o.idx) sid addr data nwords lastack ret
    (fun j => o.p (o.idx + j)) _ (plainCount_small hfit) ((accepts_iff hfit).2 (by omega)) chunkCount_plain_lt
  refine ⟨o.splice q, ?_, ?_⟩
  · rw [cpePktize, u32_eq hfit] at hrun
    rw [pktizeAt, hrun]
  · rw [splice_words, hwords hfit]

/-- **Packets that do not fit** are reported by the length 0. -/
theorem pktizeAt_full (hle : o.idx ≤ cap) (hroom : cap < o.idx + pktLen nwords lastack) :
    (pktizeAt cpeParity cap sid addr data nwords lastack ret o).1 = 0 := by
  have hrej : ¬Accepts (cap - o.idx) nwords lastack := fun h => by
    have := (accepts_iff hfit).1 h
    omega
  obtain ⟨q, hrun⟩ := @cpePktize_rejects (cap - o.idx) sid addr data nwords lastack ret
    (fun j => o.p (o.idx + j)) _ (plainCount_small hfit) hrej chunkCount_plain_lt
  rw [cpePktize] at hrun
  rw [pktizeAt, hrun]

end

theorem plainAccs_length {h n : ℕ} : ∀ c ≤ chunkCount n,
    ((plainAccs h addr data n c).flatMap Access.words).length = lenUpTo n c := by
  intro c
  induction c with
  | zero => exact fun _ => (Nat.zero_min n).symm
  | succ c ih =>
    intro hc
    have hlen : (chunkAccess h addr data n c).words.length = min 4 (n - 4 * c) + 2 := by
      simp [chunkAccess, mkAccess, Access.words]
    rw [plainAccs, range_succ, map_append, flatMap_append, map_singleton,
      flatMap_singleton, ← plainAccs, length_append, ih (by omega), hlen, lenUpTo_succ hc]

theorem pktAccs_length (h : ℕ) : ((pktAccs h addr data nwords lastack ret).flatMap Access.words).length =
    pktLen nwords lastack := by
  rw [pktAccs, flatMap_append, length_append, plainAccs_length _ le_rfl, pktLen]
  split <;> rfl

theorem pktLen_eq_zero : pktLen nwords lastack = 0 ↔ nwords = 0 := by
  unfold pktLen plainCount lenUpTo chunkCount
  split <;> omega

theorem pktLen_lt (hn : nwords ≤ 2 ^ 30) : pktLen nwords lastack < 2 ^ 32 := by
  have hb := @pktLen_bounds nwords lastack
  have hle : plainCount nwords lastack ≤ nwords := by unfold plainCount; split <;> omega
  unfold chunkCount at hb
  omega

theorem pushes_frame {k : ℕ} :
    ∀ (vs : List ℕ) (o : Out), o.idx + vs.length ≤ k → (o.pushes vs).p k = o.p k := by
  intro vs
  induction vs with
  | nil => exact fun o _ => rfl
  | cons v vs ih =>
    intro o h
    rw [length_cons] at h
    have hidx : (o.push v).idx ≤ o.idx + 1 := Nat.mod_le ..
    rw [show o.pushes (v :: vs) = (o.push v).pushes vs from rfl, ih _ (by omega)]
    exact Function.update_of_ne (by omega) _ _

theorem pktizeAt_chunk {n : ℕ} (hpos : 1 ≤ n) (hle : n ≤ 4) (hroom : o.idx + (n + 2) ≤ cap) :
    ∃ p, pktizeAt cpeParity cap sid addr data n false ret o = (n + 2, p) ∧
      ((range (n + 2)).map fun j => p (o.idx + j)) = (chunkAccess (cpeStreamHdr sid) addr data n 0).words ∧
      ∀ k, k < o.idx ∨ o.idx + (n + 2) ≤ k → p k = o.p k := by
  have hcount : chunkCount n = 1 := by unfold chunkCount; omega
  have hzero : 0 < chunkCount n := by rw [hcount]; decide
  have hlen : lenUpTo n 1 = n + 2 := by unfold lenUpTo; omega
  have hlen' : (chunkAccess (cpeStreamHdr sid) addr data n 0).words.length = n + 2 := by
    rw [chunkAccess_length]
    omega
  obtain ⟨fuel, rfl⟩ : ∃ fuel, n = fuel + 1 := ⟨n - 1, by omega⟩
  set q : Out := ⟨0, fun j => o.p (o.idx + j)⟩ with hq
  have hroom' : ¬u32 (lenUpTo (fuel + 1) (0 + 1)) > cap - o.idx := by
    rw [Nat.zero_add, hlen, u32_eq (by omega)]
    omega
  -- one round of the loop, then its end
  have hloop : pktizeLoop cpeParity (cap - o.idx) sid addr data (fuel + 1) (fuel + 1 + 1) 0 q =
      some (.ok (q.pushes (chunkAccess (cpeStreamHdr sid) addr data (fuel + 1) 0).words)) := by
    rw [show (0 : ℕ) = 4 * 0 from rfl, pktizeLoop_step (by omega) hzero rfl, if_neg hroom',
      pktizeLoop_done (by omega)]
  have hidx := pushes_idx (chunkAccess (cpeStreamHdr sid) addr data (fuel + 1) 0).words q (Nat.two_pow_pos 32)
  have hwords := pushes_words (chunkAccess (cpeStreamHdr sid) addr data (fuel + 1) 0).words q (by
    rw [hlen']
    show 0 + (fuel + 1 + 2) < 2 ^ 32
    omega)
  have hsum : q.idx + (fuel + 1 + 2) = fuel + 1 + 2 := Nat.zero_add _
  rw [hlen', hsum, u32_eq (by omega)] at hidx
  refine ⟨o.splice (q.pushes (chunkAccess (cpeStreamHdr sid) addr data (fuel + 1) 0).words).p, ?_, ?_, ?_⟩
  · rw [pktizeAt, pktize, plainCount, if_neg (by simp), hloop, Option.map_some, pktizeEnd,
      if_neg (by simp), hidx]
  · rw [Out.words, hidx] at hwords
    refine Eq.trans (map_congr_left fun j _ => ?_) hwords
    have hge : ¬o.idx + j < o.idx := by omega
    rw [Out.splice, if_neg hge, Nat.add_sub_cancel_left]
  · intro k hk
    rw [Out.splice]
    by_cases hlt : k < o.idx
    · exact if_pos hlt
    · have hk' := hk.resolve_left hlt
      rw [if_neg hlt, pushes_frame _ _ (by rw [hlen', hsum]; omega)]
      show o.p (o.idx + (k - o.idx)) = o.p k
      congr 1
      omega

end Append

end AieHlc.Packet
