import AieHlc.Elf.Fill

/-!
# The capacity counted before an image is encoded

`rt_cpe_count_pkts` counts the accesses an image takes before anything is written. From the
count `__Runtime_ctrl_kernel_pkt_build` and `rt_ctrl_load_elf_packed` derive the size of the
buffer they give to `rt_cpe_encode_body`, the packed path with room for the return
configuration that goes first.

* `rtCpeCountPkts`, `rtCpeResetAccesses`, `kernelPktCap`: the capacity.
* `rtCtrlElfRetConfig`, `rtCtrlLoadElfPacked`: the packed path.
* `Enc.Used`: at most so many words are used, and nothing is written behind the capacity.
* `Enough`: the encoder never lacks space, and never writes behind the capacity.
* **`capacity_suffices`**: the counted capacity is enough.
* `not_enough_channels`: not for a device of `2^30` DMA channels, whose count wraps.
-/

namespace AieHlc.Elf

open Option List AieHlc.Word AieHlc.Packet

/-! ### The counts -/

def RT_CPE_CHUNK_WORDS : ℕ := 4

section Count

variable (d : CpeDev) (col row : ℤ)

/-- One round of the loop of `rt_cpe_count_pkts`. A header without a target is skipped. -/
def countStep (npkt : ℕ) (ph : Phdr) : ℕ :=
  if ph.type ≠ PT_LOAD ∨ ph.filesz = 0 then npkt
  else match rtCpeTarget d col row ph.paddr with
    | none => npkt
    | some addr =>
      if addr = RT_CPE_SKIP_ADDR then npkt
      else u32 (npkt + u32 (ph.filesz + 4 * RT_CPE_CHUNK_WORDS - 1) / (4 * RT_CPE_CHUNK_WORDS))

/-- `rt_cpe_count_pkts`, and `rt_ctrl_elf_count_pkts`, which has the same target function. -/
def rtCpeCountPkts (elf : Image) : ℕ := elf.phdrs.foldl (countStep d col row) 0

/-- `rt_cpe_reset_accesses`. -/
def rtCpeResetAccesses : ℕ := u32 (2 + 4 * d.dmaNch)

/-- The capacity of `__Runtime_ctrl_kernel_pkt_build`. -/
def kernelPktCap (elf : Image) : ℕ :=
  u32 ((rtCpeCountPkts d col row elf + rtCpeResetAccesses d + 1) * (2 + RT_CPE_CHUNK_WORDS))

end Count

/-! ### The packed path -/

/-- The return configuration of a fabric: its broadcast writes, sixteen at most. -/
structure RetConfig where
  pending : Bool
  writes : List (ℕ × ℕ)
  writes_le : writes.length ≤ 16

/-- `rt_aot_plan_ret`: the packets the tool made ahead of time, one access for each write. -/
structure PlanRet where
  writes : List (ℕ × ℕ)
  pkt : List ℕ
  pkt_length : pkt.length = 3 * writes.length

section Packed

variable (maxAcc : ℕ)

/-- The loop of `rt_ctrl_elf_ret_config`. -/
def retPuts (ws : List (ℕ × ℕ)) (s : Enc) : Option Enc :=
  ws.foldlM (fun s w => rtCtrlElfPut maxAcc true w.1 [w.2] s) s

/-- `rt_ctrl_elf_ret_config` of the packed path: the packets made ahead of time if they are
for the same writes, otherwise one access for each write. -/
def rtCtrlElfRetConfig (ret : RetConfig) (plan : Option PlanRet) (s : Enc) : Option Enc :=
  if ret.pending = false then some s
  else match plan with
    | none => retPuts maxAcc ret.writes s
    | some pr =>
      if u32 (s.out.idx + pr.pkt.length) ≤ u32 (maxAcc * RT_CTRL_ELF_PKT_STRIDE) ∧ pr.writes = ret.writes then
        some { s with
          out := ⟨u32 (s.out.idx + pr.pkt.length), storeWords s.out.p s.out.idx pr.pkt⟩
          acc := u32 (s.acc + pr.writes.length) }
      else retPuts maxAcc ret.writes s

/-- The accesses `rt_ctrl_load_elf_packed` has room for. -/
def packedAccesses (npktCap : ℕ) (ret : RetConfig) : ℕ :=
  if ret.pending then u32 (npktCap + ret.writes.length) else npktCap

/-- The end of the packets in the buffer: `data_cap` rounded up to four words. -/
def tokenOff (maxAcc : ℕ) : ℕ := u32 (u32 (maxAcc * RT_CTRL_ELF_PKT_STRIDE + 3) + 3) / 4 * 4

/-- `rt_ctrl_load_elf_packed` up to the transfer. -/
def rtCtrlLoadElfPacked (d : CpeDev) (col row : ℤ) (elf : Image) (npktCap : ℕ) (ret : RetConfig)
    (plan : Option PlanRet) (pkt : ℕ → ℕ) (fuel : ℕ) : Option Body := do
  let maxAcc := packedAccesses npktCap ret
  let s ← rtCtrlElfRetConfig maxAcc ret plan ⟨⟨0, pkt⟩, 0, 0, 0⟩
  let b ← rtCpeEncodeBody (u32sub (tokenOff maxAcc) s.out.idx) d col row elf ACR_ID_BCAST true
    (fun j => s.out.p (s.out.idx + j)) fuel
  pure ⟨u32 (s.out.idx + b.words), b.nacc, s.out.splice b.pkt⟩

end Packed

/-! ### What is asked of a capacity -/

section Spec

variable (d : CpeDev) (col row : ℤ)

/-- Every segment to be loaded has a target. -/
def ValidTargets (phs : List Phdr) : Prop := ∀ ph ∈ phs, ph.loadable → (rtCpeTarget d col row ph.paddr).isSome

/-- The encoder up to the end of the headers `phs`: where a call stops at a header without
a target, with `phs` the headers before it. -/
def encodeUpTo (cap : ℕ) (elf : Image) (sid : ℕ) (phs : List Phdr) (pkt : ℕ → ℕ) (fuel : ℕ) : Option Enc := do
  let s ← cpeStart cap d sid true ⟨⟨0, pkt⟩, 0, 0, 0⟩
  phs.foldlM (phdrStep (rtCpeTarget d col row) fun ph addr =>
    cpeSeg cap (cpeStreamHdr sid) elf.byte ph addr fuel) s

/-- The buffer is as before from `cap` on. -/
def KeptFrom (cap : ℕ) (pkt p : ℕ → ℕ) : Prop := ∀ k, cap ≤ k → p k = pkt k

/-- **A capacity is enough** for the encoder with reset: it fails only at a segment without a
target, and neither a call that returns nor one that fails writes behind the capacity. -/
structure Enough (cap : ℕ) (elf : Image) (sid : ℕ) : Prop where
  encodes : ValidTargets d col row elf.phdrs → ∀ pkt fuel, 2 ^ 27 < fuel →
    ∃ b, rtCpeEncodeBody cap d col row elf sid true pkt fuel = some b ∧ b.words ≤ cap ∧ KeptFrom cap pkt b.pkt
  stops : ∀ phs, phs <+: elf.phdrs → ValidTargets d col row phs → ∀ pkt fuel, 2 ^ 27 < fuel →
    ∃ s, encodeUpTo d col row cap elf sid phs pkt fuel = some s ∧ KeptFrom cap pkt s.out.p

/-- The same of the packed path: the return configuration is put, and what is left of the
buffer is enough for the encoder. -/
structure PackedEnough (npktCap : ℕ) (elf : Image) (ret : RetConfig) (plan : Option PlanRet) : Prop where
  loads : ValidTargets d col row elf.phdrs → ∀ pkt fuel, 2 ^ 27 < fuel →
    ∃ b, rtCtrlLoadElfPacked d col row elf npktCap ret plan pkt fuel = some b ∧
      b.words ≤ tokenOff (packedAccesses npktCap ret) ∧
      KeptFrom (tokenOff (packedAccesses npktCap ret)) pkt b.pkt
  puts : ∀ pkt, ∃ s, rtCtrlElfRetConfig (packedAccesses npktCap ret) ret plan ⟨⟨0, pkt⟩, 0, 0, 0⟩ = some s ∧
    KeptFrom (tokenOff (packedAccesses npktCap ret)) pkt s.out.p ∧
    Enough d col row (u32sub (tokenOff (packedAccesses npktCap ret)) s.out.idx) elf ACR_ID_BCAST

end Spec

/-! ### The words used -/

/-- At most `n` words are used, none from `cap` on, and an access is counted for them. -/
structure Enc.Used (cap : ℕ) (pkt : ℕ → ℕ) (s : Enc) (n : ℕ) : Prop where
  idx : s.out.idx ≤ n
  acc : s.acc ≤ s.out.idx
  live : s.out.idx ≠ 0 → s.acc ≠ 0
  kept : KeptFrom cap pkt s.out.p

section Steps

variable {cap n : ℕ} {pkt : ℕ → ℕ} {s : Enc}

theorem Enc.Used.mono {m : ℕ} (hs : s.Used cap pkt n) (h : n ≤ m) : s.Used cap pkt m :=
  ⟨le_trans hs.idx h, hs.acc, hs.live, hs.kept⟩

theorem used_init (cap : ℕ) (pkt : ℕ → ℕ) : Enc.Used cap pkt ⟨⟨0, pkt⟩, 0, 0, 0⟩ 0 :=
  ⟨le_rfl, le_rfl, fun h => absurd rfl h, fun _ _ => rfl⟩

theorem Enc.Used.add (hcap : cap < 2 ^ 32) (hs : s.Used cap pkt n) {m a v : ℕ} {p : ℕ → ℕ} (hpos : 1 ≤ m)
    (hroom : n + m ≤ cap) (hp : ∀ k, cap ≤ k → p k = s.out.p k) :
    Enc.Used cap pkt ⟨⟨u32 (s.out.idx + m), p⟩, u32 (s.acc + 1), a, v⟩ (n + m) := by
  have hidx := hs.idx
  have hacc := hs.acc
  have hu : u32 (s.out.idx + m) = s.out.idx + m := u32_eq (by omega)
  have hu' : u32 (s.acc + 1) = s.acc + 1 := u32_eq (by omega)
  refine ⟨?_, ?_, ?_, ?_⟩
  · show u32 (s.out.idx + m) ≤ n + m
    omega
  · show u32 (s.acc + 1) ≤ u32 (s.out.idx + m)
    omega
  · intro _
    show u32 (s.acc + 1) ≠ 0
    omega
  · intro k hk
    rw [← hs.kept k hk]
    exact hp k hk

theorem cpePut1_used (hcap : cap < 2 ^ 32) {sid : ℕ} {w : ℕ × ℕ} (hs : s.Used cap pkt n)
    (hroom : n + 3 ≤ cap) :
    ∃ s', cpePut1 cap sid w s = some s' ∧ s'.Used cap pkt (n + 3) := by
  have hidx := hs.idx
  obtain ⟨p, hg, _, hframe⟩ := @pktizeAt_chunk cap sid w.1 (some fun _ => w.2) 0 s.out 1 le_rfl
    (by decide) (by omega)
  refine ⟨_, ?_, @Enc.Used.add cap n pkt s hcap hs 3 s.lastAddr s.lastVal p (by decide) hroom ?_⟩
  · rw [cpePut1, hg]
    exact if_neg (show ¬1 + 2 = 0 by decide)
  · intro k hk
    exact hframe k (.inr (by omega))

theorem cpeReset_used (hcap : cap < 2 ^ 32) {d : CpeDev} {sid : ℕ} (hs : s.Used cap pkt n)
    (hroom : n + 3 * (resetWrites d).length ≤ cap) :
    ∃ s', cpeReset cap d sid s = some s' ∧ s'.Used cap pkt (n + 3 * (resetWrites d).length) := by
  refine foldlM_total (f := fun s w => cpePut1 cap sid w s)
    (I := fun done t => t.Used cap pkt (n + 3 * done.length)) (n := (resetWrites d).length) ?_ _ [] s ?_ hs
  · intro done t w hlt ht
    obtain ⟨t', hput, ht'⟩ := @cpePut1_used cap _ pkt t hcap sid w ht (by omega)
    refine ⟨t', hput, ht'.mono ?_⟩
    rw [length_append, length_singleton]
    omega
  · simp

theorem storeWords_of_le {p : ℕ → ℕ} {i k : ℕ} {ws : List ℕ} (h : i + ws.length ≤ k) :
    storeWords p i ws k = p k := by
  have hnot : ¬(i ≤ k ∧ k < i + ws.length) := by omega
  exact if_neg hnot

theorem store_used (hcap : cap < 2 ^ 32) {hdr ctrl : ℕ} {ws : List ℕ} (hs : s.Used cap pkt n)
    (hroom : n + (2 + ws.length) ≤ cap) : (s.store hdr ctrl ws).Used cap pkt (n + (2 + ws.length)) := by
  have hidx := hs.idx
  have hu : u32 (s.out.idx + 1) = s.out.idx + 1 := u32_eq (by omega)
  have hadd := @Enc.Used.add cap n pkt s hcap hs (2 + ws.length) s.lastAddr s.lastVal
    (storeWords (Function.update (Function.update s.out.p s.out.idx hdr) (u32 (s.out.idx + 1)) ctrl)
      (s.out.idx + 2) ws) (by omega) hroom ?_
  · rw [← add_assoc s.out.idx] at hadd
    exact hadd
  · intro k hk
    rw [storeWords_of_le (by omega), Function.update_of_ne (by omega), Function.update_of_ne (by omega)]

theorem cpeSegLoop_used (hcap : cap < 2 ^ 32) {hdr : ℕ} {byte : ℕ → ℕ} {ph : Phdr} {addr : ℕ}
    (hfs : ph.filesz ≤ 2 ^ 32 - 16) : ∀ (m c fuel : ℕ) (ws : List ℕ) (s : Enc) (n : ℕ),
    c + m = chunkCount (segCount ph) → m < fuel → s.Used cap pkt n → n + 6 * m ≤ cap →
    ∃ r, cpeSegLoop cap hdr byte ph addr fuel (16 * c) ws s = some r ∧ r.2.2.Used cap pkt (n + 6 * m) := by
  intro m
  induction m with
  | zero =>
    intro c fuel ws s n hc hfuel hs _
    obtain ⟨fuel, rfl⟩ : ∃ f, fuel = f + 1 := ⟨fuel - 1, by omega⟩
    have hstop : ¬16 * c < ph.filesz := fun h => absurd (chunk_lt_iff.2 h) (by omega)
    refine ⟨(16 * c, ws, s), ?_, hs⟩
    rw [cpeSegLoop, if_neg hstop]
  | succ m ih =>
    intro c fuel ws s n hc hfuel hs hroom
    obtain ⟨fuel, rfl⟩ : ∃ f, fuel = f + 1 := ⟨fuel - 1, by omega⟩
    have hlen : (chunkAccess hdr addr (some (segWord byte ph)) (segCount ph) c).data.length ≤ 4 := by
      rw [chunkAccess_data, length_map, length_range]
      exact min_le_left ..
    have hidx := hs.idx
    have hfree : ¬u32 (s.out.idx + 2 +
        (chunkAccess hdr addr (some (segWord byte ph)) (segCount ph) c).data.length) > cap := by
      rw [u32_eq (by omega)]
      omega
    rw [cpeSegLoop_step hfs (by omega), if_neg hfree]
    -- the chunk is stored in its six words, and the rest of the loop has the others
    have hs' := @store_used cap n pkt s hcap hdr
      (chunkAccess hdr addr (some (segWord byte ph)) (segCount ph) c).ctrl
      (chunkAccess hdr addr (some (segWord byte ph)) (segCount ph) c).data hs (by omega)
    obtain ⟨r, hrun, hr⟩ := ih (c + 1) fuel
      (chunkAccess hdr addr (some (segWord byte ph)) (segCount ph) c).data _
      (n + 6) (by omega) (by omega) (hs'.mono (by omega)) (by omega)
    exact ⟨r, hrun, hr.mono (by omega)⟩

theorem cpeSeg_used (hcap : cap < 2 ^ 32) {hdr : ℕ} {byte : ℕ → ℕ} {ph : Phdr} {addr fuel : ℕ}
    (hfs : ph.filesz ≤ 2 ^ 32 - 16) (hfuel : chunkCount (segCount ph) < fuel) (hs : s.Used cap pkt n)
    (hroom : n + 6 * chunkCount (segCount ph) ≤ cap) :
    ∃ s', cpeSeg cap hdr byte ph addr fuel s = some s' ∧
    s'.Used cap pkt (n + 6 * chunkCount (segCount ph)) := by
  obtain ⟨⟨off, ws, t⟩, hrun, ht⟩ := @cpeSegLoop_used cap pkt hcap hdr byte ph addr hfs
    (chunkCount (segCount ph)) 0
    fuel [] s n (zero_add _) hfuel hs hroom
  rw [cpeSeg, hrun]
  refine ⟨_, rfl, ?_⟩
  dsimp only at ht ⊢
  by_cases hws : ws.length = 0
  · rw [if_pos hws]
    exact ht
  · rw [if_neg hws]
    exact ⟨ht.idx, ht.acc, ht.live, ht.kept⟩

end Steps

/-! ### The accesses of an image -/

/-- The number of accesses the segments among `phs` take. -/
def pktsOf (d : CpeDev) (row : ℤ) (phs : List Phdr) : ℕ :=
  ((loaded d row phs).map fun s => chunkCount (segCount s.1)).sum

section Phdrs

variable {d : CpeDev} {col row : ℤ} {cap : ℕ} {pkt : ℕ → ℕ}

theorem pktsOf_append (phs phs' : List Phdr) :
    pktsOf d row (phs ++ phs') = pktsOf d row phs + pktsOf d row phs' := by
  simp [pktsOf, loaded_append]

variable (ph : Phdr)

variable (phs : List Phdr)

theorem pktsOf_cons : pktsOf d row (ph :: phs) = pktsOf d row [ph] + pktsOf d row phs :=
  pktsOf_append [ph] phs

theorem pktsOf_skip {ph : Phdr} (h : ph.type ≠ PT_LOAD ∨ ph.filesz = 0) : pktsOf d row [ph] = 0 := by
  simp [pktsOf, loaded_skip h]

theorem pktsOf_target {ph : Phdr} (h : ¬(ph.type ≠ PT_LOAD ∨ ph.filesz = 0)) {addr : ℕ}
    (htgt : rtCpeTarget d col row ph.paddr = some addr) :
    pktsOf d row [ph] = if addr = RT_CPE_SKIP_ADDR then 0 else chunkCount (segCount ph) := by
  rw [pktsOf, loaded_single h htgt]
  by_cases hskip : addr = RT_CPE_SKIP_ADDR
  · simp [hskip]
  · simp [hskip]

theorem pktsOf_noTarget {ph : Phdr} (h : ¬(ph.type ≠ PT_LOAD ∨ ph.filesz = 0))
    (htgt : rtCpeTarget d col row ph.paddr = none) : pktsOf d row [ph] = 0 := by
  have hown : ownAddr d row ph.paddr = none := by
    cases hown : ownAddr d row ph.paddr with
    | none => rfl
    | some a => rw [rtCpeTarget_own hown] at htgt; exact nomatch htgt
  simp [pktsOf, loaded, owned_some h, hown]

theorem loadable_iff : ph.loadable = true ↔ ¬(ph.type ≠ PT_LOAD ∨ ph.filesz = 0) := by
  simp [Phdr.loadable]

def sizeSum : ℕ := ((phs.filter Phdr.loadable).map Phdr.filesz).sum

theorem sizeSum_cons : sizeSum (ph :: phs) = (if ph.loadable then ph.filesz else 0) + sizeSum phs := by
  by_cases h : ph.loadable
  · simp [sizeSum, h]
  · simp [sizeSum, h]

theorem filesz_le_sizeSum {ph : Phdr} (hload : ph.loadable) :
    ∀ {phs : List Phdr}, ph ∈ phs → ph.filesz ≤ sizeSum phs := by
  intro phs
  induction phs with
  | nil => simp
  | cons x xs ih =>
    intro hmem
    rw [sizeSum_cons]
    rcases mem_cons.1 hmem with rfl | hmem
    · rw [if_pos hload]
      exact Nat.le_add_right _ _
    · exact le_trans (ih hmem) (Nat.le_add_left _ _)

theorem pktsOf_single_le : 16 * pktsOf d row [ph] ≤ (if ph.loadable then ph.filesz else 0) + 15 := by
  by_cases hskip : ph.type ≠ PT_LOAD ∨ ph.filesz = 0
  · rw [pktsOf_skip hskip]
    omega
  · rw [if_pos ((loadable_iff ph).2 hskip)]
    cases htgt : rtCpeTarget d 0 row ph.paddr with
    | none =>
      rw [pktsOf_noTarget hskip htgt]
      omega
    | some addr =>
      rw [pktsOf_target hskip htgt]
      by_cases hmark : addr = RT_CPE_SKIP_ADDR
      · rw [if_pos hmark]
        omega
      · rw [if_neg hmark]
        unfold chunkCount segCount
        omega

theorem pktsOf_le : 16 * pktsOf d row phs ≤ sizeSum phs + 15 * phs.length := by
  induction phs with
  | nil => simp [pktsOf, loaded, owned, sizeSum]
  | cons ph phs ih =>
    have hone := @pktsOf_single_le d row ph
    rw [pktsOf_cons, sizeSum_cons, length_cons]
    omega

theorem countStep_eq {npkt : ℕ} {ph : Phdr} (hlt : npkt < 2 ^ 32) (hfs : ph.loadable → ph.filesz < 2 ^ 31) :
    countStep d col row npkt ph = u32 (npkt + pktsOf d row [ph]) := by
  unfold countStep
  by_cases hskip : ph.type ≠ PT_LOAD ∨ ph.filesz = 0
  · rw [if_pos hskip, pktsOf_skip hskip, add_zero, u32_eq hlt]
  · have hsmall := hfs ((loadable_iff ph).2 hskip)
    rw [if_neg hskip]
    cases htgt : rtCpeTarget d col row ph.paddr with
    | none => rw [pktsOf_noTarget hskip htgt, add_zero, u32_eq hlt]
    | some addr =>
      rw [pktsOf_target hskip htgt]
      by_cases hmark : addr = RT_CPE_SKIP_ADDR
      · simp only [if_pos hmark, add_zero, u32_eq hlt]
      · have hchunks : u32 (ph.filesz + 4 * RT_CPE_CHUNK_WORDS - 1) / (4 * RT_CPE_CHUNK_WORDS) =
            chunkCount (segCount ph) := by
          unfold RT_CPE_CHUNK_WORDS chunkCount segCount
          rw [u32_eq (by omega)]
          omega
        simp only [if_neg hmark, hchunks]

/-- **The count** is the number of accesses of the segments. -/
theorem count_eq : ∀ (phs : List Phdr) (npkt : ℕ), npkt < 2 ^ 32 →
    (∀ ph ∈ phs, ph.loadable → ph.filesz < 2 ^ 31) →
    phs.foldl (countStep d col row) npkt = u32 (npkt + pktsOf d row phs) := by
  intro phs
  induction phs with
  | nil =>
    intro npkt hlt _
    simp [pktsOf, loaded, owned, u32_eq hlt]
  | cons ph phs ih =>
    intro npkt hlt hfs
    have hlt' : u32 (npkt + pktsOf d row [ph]) < 2 ^ 32 := Nat.mod_lt _ (by decide)
    rw [foldl_cons, countStep_eq hlt (hfs ph mem_cons_self),
      ih _ hlt' (fun p hp => hfs p (mem_cons_of_mem _ hp)), pktsOf_cons ph phs]
    unfold u32
    omega

theorem phdrStep_used (hcap : cap < 2 ^ 32) {hdr : ℕ} {byte : ℕ → ℕ} {ph : Phdr} {fuel n : ℕ} {s : Enc}
    (hvalid : ph.loadable → (rtCpeTarget d col row ph.paddr).isSome) (hfs : ph.loadable → ph.filesz < 2 ^ 31)
    (hfuel : 2 ^ 27 < fuel) (hs : s.Used cap pkt n) (hroom : n + 6 * pktsOf d row [ph] ≤ cap) :
    ∃ s', phdrStep (rtCpeTarget d col row) (fun ph addr => cpeSeg cap hdr byte ph addr fuel) s ph = some s' ∧
      s'.Used cap pkt (n + 6 * pktsOf d row [ph]) := by
  unfold phdrStep
  by_cases hskip : ph.type ≠ PT_LOAD ∨ ph.filesz = 0
  · rw [if_pos hskip, pktsOf_skip hskip]
    exact ⟨s, rfl, hs⟩
  · have hload := (loadable_iff ph).2 hskip
    have hsmall := hfs hload
    obtain ⟨addr, htgt⟩ := isSome_iff_exists.1 (hvalid hload)
    rw [pktsOf_target hskip htgt] at hroom ⊢
    rw [if_neg hskip, htgt, bind_some]
    by_cases hmark : addr = RT_CPE_SKIP_ADDR
    · rw [if_pos hmark, if_pos hmark]
      exact ⟨s, rfl, hs⟩
    · rw [if_neg hmark] at hroom ⊢
      rw [if_neg hmark]
      have hchunks : chunkCount (segCount ph) ≤ 2 ^ 27 := by
        unfold chunkCount segCount
        omega
      exact cpeSeg_used hcap (by omega) (by omega) hs hroom

theorem phdrs_used (hcap : cap < 2 ^ 32) {hdr : ℕ} {byte : ℕ → ℕ} {fuel : ℕ} (hfuel : 2 ^ 27 < fuel) :
    ∀ (phs : List Phdr) (n : ℕ) (s : Enc), ValidTargets d col row phs →
      (∀ ph ∈ phs, ph.loadable → ph.filesz < 2 ^ 31) → s.Used cap pkt n → n + 6 * pktsOf d row phs ≤ cap →
      ∃ s', phs.foldlM (phdrStep (rtCpeTarget d col row) fun ph addr =>
        cpeSeg cap hdr byte ph addr fuel) s = some s' ∧
        s'.Used cap pkt (n + 6 * pktsOf d row phs) := by
  intro phs
  induction phs with
  | nil =>
    intro n s _ _ hs _
    exact ⟨s, rfl, hs.mono (Nat.le_add_right _ _)⟩
  | cons ph phs ih =>
    intro n s hvalid hfs hs hroom
    have hsplit := @pktsOf_cons d row ph phs
    obtain ⟨t, hstep, ht⟩ := @phdrStep_used d col row cap pkt hcap hdr byte ph fuel n s
      (hvalid ph mem_cons_self) (hfs ph mem_cons_self) hfuel hs (by omega)
    obtain ⟨s', hrun, hs'⟩ := ih _ t (fun p hp => hvalid p (mem_cons_of_mem _ hp))
      (fun p hp => hfs p (mem_cons_of_mem _ hp)) ht (by omega)
    refine ⟨s', ?_, hs'.mono (by omega)⟩
    rw [foldlM_cons, hstep]
    exact hrun

end Phdrs

/-! ### The final write and the return configuration -/

section End

variable {cap n : ℕ} {pkt : ℕ → ℕ} {s : Enc}

theorem pktizeAt_ack {sid addr ret : ℕ} {data : Option (ℕ → ℕ)} {o : Out} (hroom : o.idx + 3 ≤ cap) :
    ∃ p, pktizeAt cpeParity cap sid addr data 1 true ret o = (3, p) ∧
      ∀ k, o.idx + 3 ≤ k → p k = o.p k := by
  set q : Out := ⟨0, fun j => o.p (o.idx + j)⟩ with hq
  have hplain : plainCount 1 true = 0 := rfl
  have hloop : pktizeLoop cpeParity (cap - o.idx) sid addr data 0 (1 + 1) 0 q = some (.ok q) := by
    rw [show (0 : ℕ) = 4 * 0 from rfl, pktizeLoop_done (by decide)]
  have hfree : ¬u32 (q.idx + 3) > cap - o.idx := by
    show ¬u32 (0 + 3) > cap - o.idx
    rw [u32_eq (by decide)]
    omega
  have hlen : (ackWords cpeParity sid addr data ret (1 - 1)).length = 3 := rfl
  refine ⟨o.splice (q.pushes (ackWords cpeParity sid addr data ret (1 - 1))).p, ?_, ?_⟩
  · have hidx := pushes_idx (ackWords cpeParity sid addr data ret (1 - 1)) q (Nat.two_pow_pos 32)
    have h3 : u32 (q.idx + 3) = 3 := rfl
    rw [hlen, h3] at hidx
    rw [pktizeAt, pktize, hplain, hloop, map_some, pktizeEnd, if_pos ⟨rfl, by decide⟩, if_neg hfree]
    dsimp only
    rw [hidx]
  · intro k hk
    have hge : ¬k < o.idx := by omega
    have hoff : q.idx + (ackWords cpeParity sid addr data ret (1 - 1)).length ≤ k - o.idx := by
      rw [hlen]
      show 0 + 3 ≤ k - o.idx
      omega
    rw [Out.splice, if_neg hge, pushes_frame _ _ hoff]
    show o.p (o.idx + (k - o.idx)) = o.p k
    congr 1
    omega

theorem cpeFinish_used (hcap : cap < 2 ^ 32) {sid : ℕ} (hs : s.Used cap pkt n) (hne : s.out.idx ≠ 0)
    (hroom : n + 3 ≤ cap) : ∃ b, cpeFinish cap sid s = some b ∧ b.words ≤ n + 3 ∧ KeptFrom cap pkt b.pkt := by
  have hidx := hs.idx
  obtain ⟨p, hg, hframe⟩ := @pktizeAt_ack cap sid s.lastAddr 0 (some fun _ => s.lastVal) s.out (by omega)
  have hlive : ¬(s.acc = 0 ∨ s.out.idx = 0) := by
    rintro (h | h)
    · exact hs.live hne h
    · exact hne h
  refine ⟨⟨u32 (s.out.idx + 3), s.acc, p⟩, ?_, ?_, ?_⟩
  · rw [cpeFinish, if_neg hlive, hg]
    exact if_neg (show ¬(3 : ℕ) = 0 by decide)
  · show u32 (s.out.idx + 3) ≤ n + 3
    rw [u32_eq (by omega)]
    omega
  · intro k hk
    rw [← hs.kept k hk]
    exact hframe k (by omega)

theorem rtCtrlElfPut_used {maxAcc : ℕ} (hmax : maxAcc * RT_CTRL_ELF_PKT_STRIDE < 2 ^ 32) {w : ℕ × ℕ}
    (hs : s.Used (maxAcc * RT_CTRL_ELF_PKT_STRIDE) pkt n) (hfree : s.acc < maxAcc)
    (hroom : n + 3 ≤ maxAcc * RT_CTRL_ELF_PKT_STRIDE) : ∃ s', rtCtrlElfPut maxAcc true w.1 [w.2] s = some s' ∧
      s'.Used (maxAcc * RT_CTRL_ELF_PKT_STRIDE) pkt (n + 3) ∧ s'.acc = s.acc + 1 := by
  have hidx := hs.idx
  have hacc := hs.acc
  have hcap : u32 (maxAcc * RT_CTRL_ELF_PKT_STRIDE) = maxAcc * RT_CTRL_ELF_PKT_STRIDE := u32_eq hmax
  have hsum : s.out.idx + u32sub (maxAcc * RT_CTRL_ELF_PKT_STRIDE) s.out.idx =
      maxAcc * RT_CTRL_ELF_PKT_STRIDE := by
    rw [u32sub_eq (by omega) hmax]
    omega
  obtain ⟨p, hg, _, hframe⟩ := @pktizeAt_chunk (maxAcc * RT_CTRL_ELF_PKT_STRIDE) ACR_ID_BCAST w.1
    (some fun j => [w.2].getD j 0) 0 s.out 1 le_rfl (by decide) (by omega)
  refine ⟨_, ?_, @Enc.Used.add _ n pkt s hmax hs 3 s.lastAddr s.lastVal p (by decide) hroom
    fun k hk => hframe k (.inr (by omega)), u32_eq (by omega)⟩
  rw [rtCtrlElfPut, if_neg (not_le.2 hfree)]
  dsimp only
  rw [hcap, if_pos rfl, if_pos rfl, hsum, funext runtimePktParity_eq]
  rw [show [w.2].length = 1 from rfl, hg]
  exact if_neg (show ¬1 + 2 = 0 by decide)

theorem retPuts_used {maxAcc : ℕ} (hmax : maxAcc * RT_CTRL_ELF_PKT_STRIDE < 2 ^ 32) {ws : List (ℕ × ℕ)}
    (hws : ws.length ≤ maxAcc) : ∃ s', retPuts maxAcc ws ⟨⟨0, pkt⟩, 0, 0, 0⟩ = some s' ∧
      s'.Used (maxAcc * RT_CTRL_ELF_PKT_STRIDE) pkt (3 * ws.length) := by
  obtain ⟨s', hrun, hs', _⟩ := foldlM_total (f := fun s w => rtCtrlElfPut maxAcc true w.1 [w.2] s)
    (I := fun done t => t.Used (maxAcc * RT_CTRL_ELF_PKT_STRIDE) pkt (3 * done.length) ∧ t.acc = done.length)
    (n := ws.length) (by
      rintro done t w hlt ⟨ht, hacc⟩
      have hroom : 3 * done.length + 3 ≤ maxAcc * RT_CTRL_ELF_PKT_STRIDE := by
        unfold RT_CTRL_ELF_PKT_STRIDE
        omega
      obtain ⟨t', hput, ht', hacc'⟩ := @rtCtrlElfPut_used _ pkt t maxAcc hmax w ht (by omega) hroom
      rw [length_append, length_singleton]
      exact ⟨t', hput, ht'.mono (by omega), by omega⟩) ws [] ⟨⟨0, pkt⟩, 0, 0, 0⟩ (by simp)
        ⟨used_init _ _, rfl⟩
  exact ⟨s', hrun, hs'⟩

end End

/-! ### The capacity is enough -/

section Enough

variable {d : CpeDev} {col row : ℤ} {elf : Image}

/-- Room for three words for each reset write, six for each access and three for the final
write is enough. -/
theorem enough_of_room {cap sid : ℕ} (hsmall : cap ≤ 2 ^ 32 - 8) (hsum : sizeSum elf.phdrs < 2 ^ 31)
    (hroom : 3 * (resetWrites d).length + 6 * pktsOf d row elf.phdrs + 3 ≤ cap) :
    Enough d col row cap elf sid := by
  have hcap : cap < 2 ^ 32 := by omega
  have hfs : ∀ ph ∈ elf.phdrs, ph.loadable → ph.filesz < 2 ^ 31 :=
    fun ph hmem hload => lt_of_le_of_lt (filesz_le_sizeSum hload hmem) hsum
  -- what a call has written after the headers of a prefix
  have hup : ∀ phs, phs <+: elf.phdrs → ValidTargets d col row phs → ∀ pkt fuel, 2 ^ 27 < fuel →
      ∃ s, encodeUpTo d col row cap elf sid phs pkt fuel = some s ∧
        s.Used cap pkt (3 * (resetWrites d).length + 6 * pktsOf d row phs) ∧ s.out.idx ≠ 0 := by
    rintro phs ⟨rest, hrest⟩ hvalid pkt fuel hfuel
    have hsplit := @pktsOf_append d row phs rest
    rw [hrest] at hsplit
    have hmem : ∀ ph ∈ phs, ph ∈ elf.phdrs := fun ph h => hrest ▸ mem_append_left _ h
    obtain ⟨s₁, hreset, hs₁⟩ := @cpeReset_used cap 0 pkt _ hcap d sid (used_init cap pkt) (by omega)
    obtain ⟨s₂, hphdrs, hs₂⟩ := @phdrs_used d col row cap pkt hcap (cpeStreamHdr sid) elf.byte
      fuel hfuel phs _ s₁
      hvalid (fun ph h => hfs ph (hmem ph h)) hs₁ (by omega)
    refine ⟨s₂, bind_eq_some_iff.2 ⟨s₁, hreset, hphdrs⟩, by rwa [zero_add] at hs₂, ?_⟩
    -- the reset sequence has left words behind
    have hholds := (packed_rule rfl (cpeReset_holds hcap (holds_init pkt) hreset).1 hphdrs).1
    have hidx := hholds.idx
    have hfits := hholds.fits hsmall
    have hlen := resetWrites_length d
    rw [nil_append, accLen_append, accLen_puts] at hidx hfits
    rw [u32_eq (by omega)] at hidx
    omega
  refine ⟨?_, ?_⟩
  · intro hvalid pkt fuel hfuel
    obtain ⟨s, hrun, hs, hne⟩ := hup elf.phdrs (prefix_refl _) hvalid pkt fuel hfuel
    obtain ⟨b, hfin, hwords, hkept⟩ := @cpeFinish_used cap _ pkt s hcap sid hs hne (by omega)
    refine ⟨b, ?_, by omega, hkept⟩
    obtain ⟨s₁, h₁, h₂⟩ := bind_eq_some_iff.1 hrun
    exact bind_eq_some_iff.2 ⟨s₁, h₁, bind_eq_some_iff.2 ⟨s, h₂, hfin⟩⟩
  · intro phs hpre hvalid pkt fuel hfuel
    obtain ⟨s, hrun, hs, _⟩ := hup phs hpre hvalid pkt fuel hfuel
    exact ⟨s, hrun, hs.kept⟩

theorem pktsOf_lt (hsum : sizeSum elf.phdrs < 2 ^ 31) : pktsOf d row elf.phdrs ≤ 2 ^ 27 + 2 ^ 16 := by
  have hle := @pktsOf_le d row elf.phdrs
  have hnum := elf.phnum_lt
  omega

theorem rtCpeCountPkts_eq (hsum : sizeSum elf.phdrs < 2 ^ 31) :
    rtCpeCountPkts d col row elf = pktsOf d row elf.phdrs := by
  have hle := @pktsOf_lt d row elf hsum
  rw [rtCpeCountPkts, count_eq _ 0 (by decide)
    (fun ph hmem hload => lt_of_le_of_lt (filesz_le_sizeSum hload hmem) hsum), zero_add, u32_eq (by omega)]

/-- The counted reset accesses are the reset writes, for a device whose channels can be counted. -/
theorem rtCpeResetAccesses_eq (hn : d.dmaNch ≤ 2 ^ 26) : rtCpeResetAccesses d = (resetWrites d).length ∧
    (resetWrites d).length ≤ 2 ^ 28 + 2 := by
  have hlen := resetWrites_length d
  unfold rtCpeResetAccesses u32 at *
  omega

theorem rtCtrlElfRetConfig_used {maxAcc : ℕ} (hmax : maxAcc * RT_CTRL_ELF_PKT_STRIDE < 2 ^ 32)
    {ret : RetConfig}
    (hret : ret.pending → ret.writes.length ≤ maxAcc) (plan : Option PlanRet) (pkt : ℕ → ℕ) :
    ∃ s, rtCtrlElfRetConfig maxAcc ret plan ⟨⟨0, pkt⟩, 0, 0, 0⟩ = some s ∧
      s.Used (maxAcc * RT_CTRL_ELF_PKT_STRIDE) pkt (if ret.pending then 3 * ret.writes.length else 0) := by
  unfold rtCtrlElfRetConfig
  cases hp : ret.pending with
  | false => exact ⟨_, if_pos rfl, used_init _ _⟩
  | true =>
    have hws := hret hp
    have hputs := @retPuts_used pkt maxAcc hmax ret.writes hws
    rw [if_neg (by decide), if_pos rfl]
    cases plan with
    | none => exact hputs
    | some pr =>
      dsimp only
      by_cases huse : u32 (0 + pr.pkt.length) ≤ u32 (maxAcc * RT_CTRL_ELF_PKT_STRIDE) ∧ pr.writes = ret.writes
      · -- the packets made ahead of time are three words for each write too
        have hlen := pr.pkt_length
        have hn := ret.writes_le
        rw [huse.2] at hlen
        have hu : u32 (0 + pr.pkt.length) = 3 * ret.writes.length := by
          rw [u32_eq (by omega)]
          omega
        have hu' : u32 (0 + pr.writes.length) = ret.writes.length := by
          rw [u32_eq (by rw [huse.2]; omega), huse.2]
          omega
        rw [if_pos huse]
        refine ⟨_, rfl, ?_, ?_, ?_, ?_⟩
        · exact le_of_eq hu
        · show u32 (0 + pr.writes.length) ≤ u32 (0 + pr.pkt.length)
          omega
        · show u32 (0 + pr.pkt.length) ≠ 0 → u32 (0 + pr.writes.length) ≠ 0
          omega
        · intro k hk
          apply storeWords_of_le
          unfold RT_CTRL_ELF_PKT_STRIDE at hk
          omega
      · rw [if_neg huse]
        exact hputs

def retCount (ret : RetConfig) : ℕ := if ret.pending then ret.writes.length else 0

theorem retCount_le (ret : RetConfig) : retCount ret ≤ 16 := by
  have hle := ret.writes_le
  unfold retCount
  split
  · exact hle
  · exact Nat.zero_le _

theorem packedAccesses_eq {npkt : ℕ} (hlt : npkt + 16 < 2 ^ 32) (ret : RetConfig) :
    packedAccesses npkt ret = npkt + retCount ret := by
  have hle := ret.writes_le
  unfold packedAccesses retCount
  by_cases hp : ret.pending
  · rw [if_pos hp, if_pos hp, u32_eq (by omega)]
  · rw [if_neg hp, if_neg hp, add_zero]

/-- The packets of the packed path end where its accesses have eight words each, and three
more for the final write. -/
theorem tokenOff_bounds {maxAcc : ℕ} (hmax : 8 * maxAcc + 6 < 2 ^ 32) :
    8 * maxAcc + 3 ≤ tokenOff maxAcc ∧ tokenOff maxAcc ≤ 8 * maxAcc + 6 := by
  have hdata : u32 (maxAcc * RT_CTRL_ELF_PKT_STRIDE + 3) = 8 * maxAcc + 3 := by
    unfold RT_CTRL_ELF_PKT_STRIDE
    rw [u32_eq (by omega)]
    omega
  rw [tokenOff, hdata, u32_eq (by omega)]
  omega

/-- The return configuration is put and leaves enough room for the encoder, if there are
eight words for each access. -/
theorem ret_leaves_room {npkt : ℕ} (hlt : npkt ≤ 2 ^ 29 - 18) (hsum : sizeSum elf.phdrs < 2 ^ 31)
    (hroom : (resetWrites d).length + pktsOf d row elf.phdrs ≤ npkt) (ret : RetConfig) (plan : Option PlanRet)
    (pkt : ℕ → ℕ) :
    ∃ s, rtCtrlElfRetConfig (packedAccesses npkt ret) ret plan ⟨⟨0, pkt⟩, 0, 0, 0⟩ = some s ∧
      s.out.idx ≤ tokenOff (packedAccesses npkt ret) ∧ tokenOff (packedAccesses npkt ret) < 2 ^ 32 ∧
      KeptFrom (tokenOff (packedAccesses npkt ret)) pkt s.out.p ∧
      Enough d col row (u32sub (tokenOff (packedAccesses npkt ret)) s.out.idx) elf ACR_ID_BCAST := by
  have hle := retCount_le ret
  rw [packedAccesses_eq (by omega)]
  obtain ⟨hlow, hhigh⟩ := @tokenOff_bounds (npkt + retCount ret) (by omega)
  have hret : ret.pending → ret.writes.length ≤ npkt + retCount ret := by
    intro hp
    rw [retCount, if_pos hp]
    exact Nat.le_add_left _ _
  have hmax : (npkt + retCount ret) * RT_CTRL_ELF_PKT_STRIDE < 2 ^ 32 := by
    unfold RT_CTRL_ELF_PKT_STRIDE
    omega
  obtain ⟨s, hrun, hs⟩ := rtCtrlElfRetConfig_used hmax hret plan pkt
  have hidx : s.out.idx ≤ 3 * retCount ret := by
    have h := hs.idx
    unfold retCount
    by_cases hp : ret.pending
    · rw [if_pos hp] at h ⊢
      exact h
    · rw [if_neg hp] at h ⊢
      exact h
  refine ⟨s, hrun, by omega, by omega, ?_, ?_⟩
  · intro k hk
    apply hs.kept
    unfold RT_CTRL_ELF_PKT_STRIDE
    omega
  · rw [u32sub_eq (by omega) (by omega)]
    exact enough_of_room (by omega) hsum (by omega)

/-- What the encoder leaves behind its capacity, the packed path leaves behind its packets. -/
theorem packed_enough {npkt : ℕ} (hlt : npkt ≤ 2 ^ 29 - 18) (hsum : sizeSum elf.phdrs < 2 ^ 31)
    (hroom : (resetWrites d).length + pktsOf d row elf.phdrs ≤ npkt) (ret : RetConfig)
    (plan : Option PlanRet) :
    PackedEnough d col row npkt elf ret plan := by
  have hputs := @ret_leaves_room d col row elf npkt hlt hsum hroom ret plan
  refine ⟨?_, ?_⟩
  · intro hvalid pkt fuel hfuel
    obtain ⟨s, hret, hidx, hoff, hkept, henough⟩ := hputs pkt
    obtain ⟨b, hrun, hwords, hb⟩ := henough.encodes hvalid (fun j => s.out.p (s.out.idx + j)) fuel hfuel
    rw [u32sub_eq hidx hoff] at hwords hb
    refine ⟨⟨u32 (s.out.idx + b.words), b.nacc, s.out.splice b.pkt⟩, ?_, ?_, ?_⟩
    · exact bind_eq_some_iff.2 ⟨s, hret, bind_eq_some_iff.2 ⟨b, hrun, rfl⟩⟩
    · show u32 (s.out.idx + b.words) ≤ _
      rw [u32_eq (by omega)]
      omega
    · intro k hk
      have hge : ¬k < s.out.idx := by omega
      have hat : s.out.idx + (k - s.out.idx) = k := by omega
      show (if k < s.out.idx then s.out.p k else b.pkt (k - s.out.idx)) = pkt k
      rw [if_neg hge, hb _ (by omega)]
      show s.out.p (s.out.idx + (k - s.out.idx)) = pkt k
      rw [hat, hkept k hk]
  · intro pkt
    obtain ⟨s, hret, _, _, hkept, henough⟩ := hputs pkt
    exact ⟨s, hret, hkept, henough⟩

/-- **The counted capacity is enough**, for the packet of a kernel and for the packed path with
whatever return configuration is pending. -/
theorem capacity_suffices (hn : d.dmaNch ≤ 2 ^ 26) (hsum : sizeSum elf.phdrs < 2 ^ 31) :
    (∀ sid, Enough d col row (kernelPktCap d col row elf) elf sid) ∧
      ∀ ret plan, PackedEnough d col row (u32 (rtCpeCountPkts d col row elf + rtCpeResetAccesses d))
        elf ret plan := by
  obtain ⟨hreset, hlen⟩ := rtCpeResetAccesses_eq hn
  have hpkts := @pktsOf_lt d row elf hsum
  rw [kernelPktCap, rtCpeCountPkts_eq hsum, hreset]
  refine ⟨?_, ?_⟩
  · intro sid
    unfold RT_CPE_CHUNK_WORDS
    rw [u32_eq (by omega)]
    exact enough_of_room (by omega) hsum (by omega)
  · intro ret plan
    rw [u32_eq (by omega)]
    exact packed_enough (by omega) hsum (by omega) ret plan

end Enough

/-! ### An image that fits, and a device whose channels do not -/

/-- One word for a device without DMA channels. -/
theorem capacity_suffices_oneWord : smallDev.dmaNch ≤ 2 ^ 26 ∧ sizeSum oneWord.phdrs < 2 ^ 31 ∧
    ∃ b, rtCpeEncodeBody (kernelPktCap smallDev 0 0 oneWord) smallDev 0 0 oneWord ACR_ID_BCAST true
      (fun _ => 0)
      (2 ^ 27 + 1) = some b := by
  have hn : smallDev.dmaNch ≤ 2 ^ 26 := by decide
  have hsum : sizeSum oneWord.phdrs < 2 ^ 31 := by decide
  have hvalid : ValidTargets smallDev 0 0 oneWord.phdrs := by
    intro ph hph _
    obtain rfl := mem_singleton.1 hph
    decide
  obtain ⟨b, hb, _⟩ := ((capacity_suffices hn hsum).1 ACR_ID_BCAST).encodes hvalid (fun _ => 0)
    (2 ^ 27 + 1) (by omega)
  exact ⟨hn, hsum, b, hb⟩

/-- A device of `2^30` DMA channels in each direction: `4 * dma_nch` is 0 in 32 bits. -/
def wrappedChannels : CpeDev := ⟨0x4000, 0x20000, 0x40000, 0x10000, 0x32000, 2, false, 0x1DE00, 8, 2 ^ 30, 2⟩

/-- Its capacity is counted as 18 words, while the reset sequence alone has `2^32 + 2` accesses. -/
theorem not_enough_channels :
    sizeSum noSegment.phdrs < 2 ^ 31 ∧ ValidTargets wrappedChannels 0 0 noSegment.phdrs ∧
    ¬Enough wrappedChannels 0 0 (kernelPktCap wrappedChannels 0 0 noSegment) noSegment ACR_ID_BCAST := by
  have hvalid : ValidTargets wrappedChannels 0 0 noSegment.phdrs :=
    fun _ hph => absurd hph (by simp [noSegment])
  refine ⟨by decide, hvalid, ?_⟩
  intro henough
  have hcap : kernelPktCap wrappedChannels 0 0 noSegment = 18 := by decide
  rw [hcap] at henough
  obtain ⟨b, hb, _⟩ := henough.encodes hvalid (fun _ => 0) (2 ^ 27 + 1) (by omega)
  obtain ⟨_, _, _, hroom, _⟩ := encode_spec (by decide) hb
  have hlen := resetWrites_length wrappedChannels
  have hnch : wrappedChannels.dmaNch = 2 ^ 30 := rfl
  have hroom' := hroom rfl
  rw [hlen, hnch] at hroom'
  unfold u32 at hroom'
  omega

end AieHlc.Elf
