import AieHlc.Packet.Stream

/-!
# Segment round trip

A segment that holds the accesses of its calls (`Seg.Holds`) is read back as their writes, before and after
it is finished.

* `Seg.Holds.run`: a whole sequence of calls.
* `Seg.Holds.spells`, `Seg.Holds.spellsFinished`: the accesses of the buffer spell the writes.
* `Seg.Holds.finish_again`: finishing happens once.
* `Seg.Holds.roundTrip`: the round trip of a segment that holds the writes of its calls.
-/

namespace AieHlc.Packet

open List AieHlc.Word AieHlc.Prog

section Run

variable {cap sid : ℕ}

def wordsFrom : ℕ → List ℕ → List (ℕ × ℕ)
  | _, [] => []
  | off, d :: ds => (off, d) :: wordsFrom (u32 (off + 4)) ds

theorem wordsFrom_writes (ds : List ℕ) (off : ℕ) :
    ((wordsFrom off ds).map fun w => (w.1 % 2 ^ 20, w.2)) = ds.mapIdx fun i d =>
    ((off + 4 * i) % 2 ^ 20, d) := by
  induction ds generalizing off with
  | nil => simp [wordsFrom]
  | cons d ds ih =>
    -- the next offset wraps at 32 bits, which the 20 bits of the address do not see
    have hshift : ∀ i, (u32 (off + 4) + 4 * i) % 2 ^ 20 = (off + 4 * (i + 1)) % 2 ^ 20 := by
      intro i
      unfold u32
      omega
    rw [wordsFrom, map_cons, ih, mapIdx_cons]
    simp only [hshift, mul_zero, add_zero]

theorem Seg.Holds.words_run (hcap : cap ≤ 2 ^ 32 - 4) {h : ℕ} (ds : List ℕ) {off : ℕ} {s s' : Seg} {u : Unit}
    {cs : List (Chunk ℕ)} (hs : s.Holds cap h cs) (hok : segWords cap h off ds s = .ok u s') :
    s'.Holds cap h (putWords cs (wordsFrom off ds)) := by
  induction ds generalizing off s cs with
  | nil =>
    cases hok
    exact hs
  | cons d ds ih =>
    obtain ⟨_, s1, h1, h2⟩ := bind_ok.1 hok
    exact ih (hs.word hcap h1) h2

/-- **The run**: the segment holds the words of all calls so far. -/
theorem Seg.Holds.run (hcap : cap ≤ 2 ^ 32 - 4) (calls : List SegCall) {s s' : Seg} {u : Unit}
    {cs : List (Chunk ℕ)}
    (hs : s.Holds cap (cpeStreamHdr sid) cs) (hok : segRun cap sid calls s = .ok u s') :
    s'.Holds cap (cpeStreamHdr sid) (putWords cs (calls.flatMap fun c => wordsFrom c.off c.data)) := by
  induction calls generalizing s cs with
  | nil =>
    cases hok
    exact hs
  | cons c calls ih =>
    obtain ⟨_, s1, h1, h2⟩ := bind_ok.1 hok
    rw [flatMap_cons, putWords_split]
    exact ih (hs.words_run hcap c.data h1) h2

theorem run_writes (calls : List SegCall) :
    chunkWrites (putWords [] (calls.flatMap fun c => wordsFrom c.off c.data)) =
      calls.flatMap SegCall.writes := by
  rw [putWords_writes (by simp), chunkWrites, nil_append, map_flatMap]
  simp only [wordsFrom_writes]
  rfl

end Run

section Spell

variable {cap sid h : ℕ} {s : Seg} {c : Chunk ℕ} {cs : List (Chunk ℕ)} {calls : List SegCall}

theorem Chunk.Valid.inBlock {h : ℕ} {c : Chunk ℕ} (hv : c.Valid) (hal : c.addr % 4 = 0) :
    (c.access h).InBlock := by
  have hb := hv.block
  have hp := hv.pos
  have haddr : hdrAddr (c.access h).ctrl = c.addr := hv.hdrAddr_eq
  have hbeats : hdrBeats (c.access h).ctrl = c.data.length := hv.hdrBeats_eq
  rw [cpeWordsToBoundary_eq] at hb
  unfold Access.InBlock
  rw [haddr, hbeats]
  split at hb <;> omega

theorem Chunk.Valid.addr_mem {c : Chunk ℕ} (hv : c.Valid) : ∃ d, (c.addr, d) ∈ c.writes := by
  obtain ⟨d, ds, hd⟩ := exists_cons_of_length_pos hv.pos
  refine ⟨d, ?_⟩
  rw [Chunk.writes, hd, mapIdx_cons, mul_zero, add_zero, Nat.mod_eq_of_lt hv.addr_lt]
  exact mem_cons_self

theorem mem_chunkWrites {c : Chunk ℕ} (hc : c ∈ cs) {w : ℕ × ℕ} (hw : w ∈ c.writes) : w ∈ chunkWrites cs := by
  induction cs with
  | nil => simp at hc
  | cons b cs ih =>
    rw [chunkWrites, mem_append]
    rcases mem_cons.1 hc with rfl | hc
    · exact .inr hw
    · exact .inl (ih hc)

theorem aligned_of_writes (hal : ∀ c ∈ calls, c.off % 4 = 0) {w : ℕ × ℕ}
    (hw : w ∈ calls.flatMap SegCall.writes) : w.1 % 4 = 0 := by
  obtain ⟨c, hc, hwc⟩ := mem_flatMap.1 hw
  obtain ⟨i, hi, rfl⟩ := mem_mapIdx.1 hwc
  have := hal c hc
  simp only
  omega

theorem access_oddParity {a : Access} (hv : ∀ c ∈ cs, c.Valid)
    (ha : a ∈ cs.reverse.map (Chunk.access (cpeStreamHdr sid))) :
    a.OddParity := by
  obtain ⟨c, hc, rfl⟩ := mem_map.1 ha
  have h := hv c (mem_reverse.1 hc)
  exact ⟨parity_streamHdr sid, parity_ctrlWord (ctrl_lt h.addr_lt h.beats_lt h.op_lt)⟩

theorem Seg.Holds.spells (hs : s.Holds cap (cpeStreamHdr sid) cs) (hp : Plain cs)
    (hw : chunkWrites cs = calls.flatMap SegCall.writes) :
    Spells calls s (cs.reverse.map (Chunk.access (cpeStreamHdr sid))) where
  walk := hs.words ▸ walk_wordsOf _ hs.valid
  writes := (access_writes _ hs.valid).trans hw
  parity a ha := access_oddParity hs.valid ha
  plain := by
    intro a ha
    obtain ⟨c, hc, rfl⟩ := mem_map.1 ha
    have hmem := mem_reverse.1 hc
    exact (hs.valid c hmem).hdrOp_eq.trans (hp c hmem)
  block := by
    intro hal a ha
    obtain ⟨c, hc, rfl⟩ := mem_map.1 ha
    have hmem := mem_reverse.1 hc
    obtain ⟨d, hd⟩ := (hs.valid c hmem).addr_mem
    exact (hs.valid c hmem).inBlock (aligned_of_writes hal (hw ▸ mem_chunkWrites hmem hd))

theorem Seg.Holds.spellsFinished (hs : s.Holds cap (cpeStreamHdr sid) cs) (hcap : cap < 2 ^ 32)
    (hp : Plain cs) (hw : chunkWrites cs = calls.flatMap SegCall.writes) :
    SpellsFinished calls (rtCpeSegFinish s).2
      ((sealLast cs).reverse.map (Chunk.access (cpeStreamHdr sid))) where
  walk := (hs.finish hcap).1 ▸ walk_wordsOf _ (sealLast_valid hs.valid)
  writes := (access_writes _ (sealLast_valid hs.valid)).trans ((sealLast_writes cs).trans hw)
  parity a ha := access_oddParity (sealLast_valid hs.valid) ha
  ack := by
    by_cases hne : cs = []
    · simp [hne, sealLast]
    · exact .inr (sealLast_oneAck hne hs.valid fun c hc => hp c (mem_of_mem_tail hc))

theorem sealLast_slots_le (cs : List (Chunk ℕ)) (hv : ∀ c ∈ cs, c.Valid) :
    (slots (sealLast cs)).length ≤ (slots cs).length + 2 := by
  cases cs with
  | nil => simp [sealLast]
  | cons c cs =>
    have hc := hv c mem_cons_self
    have hf := c.front_length
    have hb := hc.back_length
    have hpos := hc.pos
    by_cases hlen : 1 < c.data.length
    · rw [sealLast_split hlen]
      simp only [slots, length_append, Chunk.slots_length]
      omega
    · rw [sealLast_single hlen]
      simp only [slots, length_append, Chunk.slots_length]
      omega

theorem Seg.Holds.finished (hs : s.Holds cap h cs) (hcap : cap < 2 ^ 32) :
    (rtCpeSegFinish s).2.Holds (cap + 2) h (sealLast cs) ∧ (rtCpeSegFinish s).1 ≤ cap := by
  obtain ⟨hw, hl, hp⟩ := hs.finish hcap
  have hlen : (rtCpeSegFinish s).2.pw = (slots (sealLast cs)).length :=
    by rw [← words_length, hw, wordsOf_length]
  have hle := sealLast_slots_le cs hs.valid
  have hpw := hs.pw_eq
  have hroom := hs.room
  have hfits : (rtCpeSegFinish s).2.pw ≤ cap := by
    cases cs with
    | nil => simp [hlen, sealLast, slots]
    | cons c cs =>
      have hpos : 0 < s.pw := by rw [hs.pw_cons]; omega
      omega
  exact ⟨⟨hw, sealLast_valid hs.valid, hl, .inr (by omega)⟩, hp ▸ hfits⟩

/-- Finishing a segment whose last access already is a write with return changes nothing. -/
theorem Seg.Holds.finish_again (hs : s.Holds cap h (c :: cs)) (hcap : cap < 2 ^ 32) (hone : c.data.length = 1)
    (hop : c.op = 2) : rtCpeSegFinish s = (s.pw, s) := by
  have hv := hs.valid c mem_cons_self
  have hb : hdrBeats (s.p s.last) = 1 := by rw [hs.ctrl, hv.hdrBeats_eq, hone]
  have ha : hdrAddr (s.p s.last) = c.addr := by rw [hs.ctrl, hv.hdrAddr_eq]
  have hctrl : cpeCtrlWord (c.addr ||| (0x2 <<< 22)) = s.p s.last := by
    rw [hs.ctrl, ack_fields hv.addr_lt, Chunk.ctrl, hone, hop]
  have hsame : s.store s.last (s.p s.last) = s := by
    unfold Seg.store
    rw [Function.update_eq_self]
  unfold rtCpeSegFinish
  rw [if_neg (hs.last_ne hcap)]
  simp only [hb, ha, gt_iff_lt, lt_irrefl, if_false, hctrl, hsame]

/-- **The round trip of a segment that holds the writes of its calls.** -/
theorem Seg.Holds.roundTrip (hs : s.Holds cap (cpeStreamHdr sid) cs) (hcap : cap ≤ 2 ^ 32 - 4) (hp : Plain cs)
    (hw : chunkWrites cs = calls.flatMap SegCall.writes) : RoundTrip cap calls s := by
  obtain ⟨hfin, hle⟩ := hs.finished (by omega)
  have hlen := (hs.finish (by omega)).2.2
  refine ⟨⟨_, hs.spells hp hw⟩, ⟨_, hs.spellsFinished (by omega) hp hw⟩, hlen, hle, ?_⟩
  cases cs with
  | nil =>
    have hnone : s.last = RT_CPE_NONE := hs.last
    have hnil : rtCpeSegFinish s = (0, s) := by rw [rtCpeSegFinish, if_pos hnone]
    rw [hnil]
    exact hnil
  | cons c cs =>
    have hone := (hs.valid c mem_cons_self).back_length
    -- after finishing, the newest access is the last word alone
    obtain ⟨rest, hseal⟩ : ∃ rest, sealLast (c :: cs) = c.back :: rest := by
      by_cases hlen : 1 < c.data.length
      · exact ⟨_, sealLast_split hlen cs⟩
      · exact ⟨_, sealLast_single hlen cs⟩
    rw [hseal] at hfin
    rw [hfin.finish_again (by omega) hone rfl, ← hlen]

end Spell

end AieHlc.Packet
