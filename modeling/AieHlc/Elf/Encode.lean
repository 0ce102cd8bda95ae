import AieHlc.Elf.Image

/-!
# Encoding an image as control packets

Model of `cpe_put1`, `cpe_reset`, `cpe_seg` and `rt_cpe_encode_body`
(`aie_ctrlpkt_encode.c`). The packet index, the access count and the byte offset in a
segment are 32-bit; the offset of a segment of more than `2^32 - 16` bytes wraps before
it reaches the end, so the loop over a segment has fuel. `none` stands for a call that
does not return 0.

* `Enc`: the packet buffer, the access count and the last word loaded.
* `rtCpeEncodeBody`: the encoder.
* `Enc.Holds`: the buffer holds a list of accesses.
* `cpePut1_holds`, `cpeReset_holds`, `cpeSeg_holds`: what each part adds.
* `phdrs_rule`, `packed_rule`: the loop over the program headers.
-/

namespace AieHlc.Elf

open List AieHlc.Word AieHlc.Packet

/-- The state of an encoder. -/
structure Enc where
  out : Out
  acc : ℕ
  lastAddr : ℕ
  lastVal : ℕ

def Enc.last (s : Enc) : ℕ × ℕ := (s.lastAddr, s.lastVal)

variable (p : ℕ → ℕ)

/-- `memcpy` of words to index `i` of a buffer. -/
def storeWords (i : ℕ) (ws : List ℕ) : ℕ → ℕ :=
  fun k => if i ≤ k ∧ k < i + ws.length then ws.getD (k - i) 0 else p k

/-- The words of a chunk of `chunk` bytes from `src` on, padded with zeros. -/
def chunkData (byte : ℕ → ℕ) (src chunk : ℕ) : List ℕ :=
  (range ((chunk + 3) / 4)).map fun j => leWord fun b => if 4 * j + b < chunk then byte
    (src + (4 * j + b)) else 0

def Enc.store (s : Enc) (hdr ctrl : ℕ) (ws : List ℕ) : Enc :=
  { s with
    out := ⟨u32 (s.out.idx + 2 + ws.length),
      storeWords (Function.update (Function.update s.out.p s.out.idx hdr) (u32 (s.out.idx + 1)) ctrl)
        (s.out.idx + 2) ws⟩
    acc := u32 (s.acc + 1) }

section Model

variable (cap : ℕ)

/-- `cpe_put1`. -/
def cpePut1 (sid : ℕ) (w : ℕ × ℕ) (s : Enc) : Option Enc :=
  let g := pktizeAt cpeParity cap sid w.1 (some fun _ => w.2) 1 false 0 s.out
  if g.1 = 0 then none
  else some { s with out := ⟨u32 (s.out.idx + g.1), g.2⟩, acc := u32 (s.acc + 1) }

/-- `cpe_reset`. -/
def cpeReset (d : CpeDev) (sid : ℕ) (s : Enc) : Option Enc :=
  (resetWrites d).foldlM (fun s w => cpePut1 cap sid w s) s

/-- The loop of `cpe_seg` from byte `off` on: the offset and the words of the last chunk
at its end. -/
def cpeSegLoop (hdr : ℕ) (byte : ℕ → ℕ) (ph : Phdr) (addr : ℕ) :
    ℕ → ℕ → List ℕ → Enc → Option (ℕ × List ℕ × Enc)
  | 0, _, _, _ => none
  | fuel + 1, off, words, s =>
    if off < ph.filesz then
      let ws := chunkData byte (ph.offset + off) (min (ph.filesz - off) 16)
      let ctrl := (((ws.length - 1) &&& 0x3) <<< 20) ||| (u32 (addr + off) &&& 0xFFFFF)
      if u32 (s.out.idx + 2 + ws.length) > cap then none
      else cpeSegLoop hdr byte ph addr fuel (u32 (off + 16)) ws (s.store hdr (cpeCtrlWord ctrl) ws)
    else some (off, words, s)

/-- `cpe_seg`. -/
def cpeSeg (hdr : ℕ) (byte : ℕ → ℕ) (ph : Phdr) (addr fuel : ℕ) (s : Enc) : Option Enc :=
  (cpeSegLoop cap hdr byte ph addr fuel 0 [] s).map fun (off, ws, s) =>
    if ws.length = 0 then s
    else { s with
      lastAddr := u32 (addr + u32sub off 16 + (ws.length - 1) * 4)
      lastVal := ws.getD (ws.length - 1) 0 }

variable (d : CpeDev) (col row : ℤ)

/-- One round of the loop over the program headers, in every encoder: skip what is not
loaded, fail where there is no target, skip other tiles. -/
def phdrStep (target : ℕ → Option ℕ) (seg : Phdr → ℕ → Enc → Option Enc) (s : Enc) (ph : Phdr) : Option Enc :=
  if ph.type ≠ PT_LOAD ∨ ph.filesz = 0 then some s
  else (target ph.paddr).bind fun addr => if addr = RT_CPE_SKIP_ADDR then some s else seg ph addr s

/-- The loop of `rt_cpe_encode_body` over the program headers. -/
def cpePhdrs (hdr : ℕ) (elf : Image) (fuel : ℕ) (s : Enc) : Option Enc :=
  elf.phdrs.foldlM (phdrStep (rtCpeTarget d col row) fun ph addr => cpeSeg cap hdr elf.byte ph addr fuel) s

/-- The body's length, the number of accesses and the buffer. -/
structure Body where
  words : ℕ
  nacc : ℕ
  pkt : ℕ → ℕ

/-- The final write with return of the last word loaded. -/
def cpeFinish (sid : ℕ) (s : Enc) : Option Body :=
  if s.acc = 0 ∨ s.out.idx = 0 then none
  else
    let g := pktizeAt cpeParity cap sid s.lastAddr (some fun _ => s.lastVal) 1 true 0 s.out
    if g.1 = 0 then none else some ⟨u32 (s.out.idx + g.1), s.acc, g.2⟩

/-- The reset sequence, if it is wanted. -/
def cpeStart (sid : ℕ) (wantReset : Bool) (s : Enc) : Option Enc :=
  if wantReset then cpeReset cap d sid s else some s

/-- `rt_cpe_encode_body`. -/
def rtCpeEncodeBody (elf : Image) (sid : ℕ) (wantReset : Bool) (pkt : ℕ → ℕ) (fuel : ℕ) : Option Body := do
  let s ← cpeStart cap d sid wantReset ⟨⟨0, pkt⟩, 0, 0, 0⟩
  let s ← cpePhdrs cap d col row (cpeStreamHdr sid) elf fuel s
  cpeFinish cap sid s

end Model

/-! ### What the buffer holds -/

def accLen (accs : List Access) : ℕ := (accs.flatMap Access.words).length

/-- The buffer holds `accs`, as long as their words fit 32 bits. -/
structure Enc.Holds (cap : ℕ) (s : Enc) (accs : List Access) : Prop where
  idx : s.out.idx = u32 (accLen accs)
  room : s.out.idx ≤ cap
  words : accLen accs < 2 ^ 32 → s.out.words = accs.flatMap Access.words
  acc : s.acc = u32 accs.length
  fits : cap ≤ 2 ^ 32 - 8 → accLen accs ≤ cap

theorem accLen_append (a b : List Access) : accLen (a ++ b) = accLen a + accLen b := by
  rw [accLen, flatMap_append, length_append]
  rfl

section Steps

variable {cap : ℕ} {s s' : Enc} {accs : List Access}

theorem accLen_put (h : ℕ) (w : ℕ × ℕ) : accLen [putAcc h w] = 3 := rfl

/-- An access of one word that `pktizeAt` appends. -/
theorem append_holds (hcap : cap < 2 ^ 32) {sid addr : ℕ} {data : Option (ℕ → ℕ)} {g : ℕ × (ℕ → ℕ)}
    (hs : s.Holds cap accs) (hg : pktizeAt cpeParity cap sid addr data 1 false 0 s.out = g) (hne : g.1 ≠ 0) :
    Enc.Holds cap { s with out := ⟨u32 (s.out.idx + g.1), g.2⟩, acc := u32 (s.acc + 1) }
        (accs ++ [chunkAccess (cpeStreamHdr sid) addr data 1 0]) ∧ u32 (s.out.idx + g.1) = s.out.idx + 3 := by
  have hlen : pktLen 1 false = 3 := rfl
  have hacc : accLen [chunkAccess (cpeStreamHdr sid) addr data 1 0] = 3 := rfl
  have hroom : s.out.idx + pktLen 1 false ≤ cap := by
    by_contra hfull
    refine hne ?_
    rw [← hg]
    exact pktizeAt_full (by decide) hs.room (Nat.lt_of_not_le hfull)
  obtain ⟨p, hp, hwords⟩ := @pktizeAt_fits cap sid addr data 1 false 0 s.out (by decide) hroom
  rw [hlen] at hroom hwords hp
  obtain rfl := hp.symm.trans hg
  have hidx := hs.idx
  have hstep : u32 (s.out.idx + 3) = s.out.idx + 3 := u32_eq (by omega)
  refine ⟨⟨?_, ?_, fun hfit => ?_, ?_, fun hsmall => ?_⟩, hstep⟩
  · show u32 (s.out.idx + 3) = _
    rw [accLen_append, hacc, hidx]
    unfold u32
    omega
  · show u32 (s.out.idx + 3) ≤ cap
    rw [hstep]
    exact hroom
  · rw [accLen_append, hacc] at hfit
    show Out.words ⟨u32 (s.out.idx + 3), p⟩ = _
    rw [hstep, flatMap_append, ← hs.words (by omega)]
    exact hwords
  · show u32 (s.acc + 1) = _
    rw [hs.acc, length_append, length_singleton]
    unfold u32
    omega
  · have hle := hs.fits hsmall
    rw [u32_eq (by omega)] at hidx
    rw [accLen_append, hacc, ← hidx]
    exact hroom

theorem cpePut1_holds (hcap : cap < 2 ^ 32) {sid : ℕ} {w : ℕ × ℕ} (hs : s.Holds cap accs)
    (hrun : cpePut1 cap sid w s = some s') : s'.Holds cap (accs ++ [putAcc (cpeStreamHdr sid) w]) ∧
      s'.out.idx = s.out.idx + 3 ∧ s'.last = s.last := by
  rw [cpePut1] at hrun
  by_cases hne : (pktizeAt cpeParity cap sid w.1 (some fun _ => w.2) 1 false 0 s.out).1 = 0
  · rw [if_pos hne] at hrun
    exact nomatch hrun
  · rw [if_neg hne] at hrun
    obtain rfl := Option.some.inj hrun
    obtain ⟨hs', hidx⟩ := append_holds hcap hs rfl hne
    exact ⟨hs', hidx, rfl⟩

theorem cpePut1_total {sid : ℕ} {w : ℕ × ℕ} (hroom : s.out.idx + 3 ≤ cap) : ∃ p, cpePut1 cap sid w s =
    some { s with out := ⟨u32 (s.out.idx + 3), p⟩, acc := u32 (s.acc + 1) } := by
  obtain ⟨p, hg, _⟩ := @pktizeAt_fits cap sid w.1 (some fun _ => w.2) 1 false 0 s.out (by decide) hroom
  rw [cpePut1, hg]
  exact ⟨p, if_neg (show ¬pktLen 1 false = 0 by decide)⟩

/-- An invariant of a fold that may fail: it holds of the elements done so far. -/
theorem foldlM_rule {σ ι : Type} {f : σ → ι → Option σ} {I : List ι → σ → Prop}
    (hstep : ∀ done s x s', I done s → f s x = some s' → I (done ++ [x]) s') :
    ∀ (xs done : List ι) (s s' : σ), I done s → xs.foldlM f s = some s' → I (done ++ xs) s' := by
  intro xs
  induction xs with
  | nil =>
    intro done s s' hI hrun
    obtain rfl := Option.some.inj hrun
    rwa [append_nil]
  | cons x xs ih =>
    intro done s s' hI hrun
    rw [foldlM_cons] at hrun
    obtain ⟨s₁, h₁, hrest⟩ := Option.bind_eq_some_iff.1 hrun
    have hI' := ih _ s₁ s' (hstep done s x s₁ hI h₁) hrest
    rwa [append_assoc] at hI'

/-- A fold whose steps keep an invariant and do not fail before `n` of them. -/
theorem foldlM_total {σ ι : Type} {f : σ → ι → Option σ} {I : List ι → σ → Prop} {n : ℕ}
    (hstep : ∀ done s x, done.length < n → I done s → ∃ s', f s x = some s' ∧ I (done ++ [x]) s') :
    ∀ (xs done : List ι) (s : σ), done.length + xs.length ≤ n → I done s →
      ∃ s', xs.foldlM f s = some s' ∧ I (done ++ xs) s' := by
  intro xs
  induction xs with
  | nil => exact fun done s _ hI => ⟨s, rfl, by rwa [append_nil]⟩
  | cons x xs ih =>
    intro done s hn hI
    rw [length_cons] at hn
    obtain ⟨s₁, h₁, hI₁⟩ := hstep done s x (by omega) hI
    obtain ⟨s', hrun, hI'⟩ := ih (done ++ [x]) s₁ (by rw [length_append, length_singleton]; omega) hI₁
    refine ⟨s', ?_, by rwa [append_assoc] at hI'⟩
    rw [foldlM_cons, h₁]
    exact hrun

theorem cpeReset_holds (hcap : cap < 2 ^ 32) {d : CpeDev} {sid : ℕ} (hs : s.Holds cap accs)
    (hrun : cpeReset cap d sid s = some s') :
    s'.Holds cap (accs ++ (resetWrites d).map (putAcc (cpeStreamHdr sid))) ∧
      s'.out.idx = s.out.idx + 3 * (resetWrites d).length ∧ s'.last = s.last := by
  refine foldlM_rule (I := fun done t => t.Holds cap (accs ++ done.map (putAcc (cpeStreamHdr sid))) ∧
    t.out.idx = s.out.idx + 3 * done.length ∧ t.last = s.last) ?_ _ [] s s' ?_ hrun
  · rintro done t w t' ⟨ht, hidx, hlast⟩ hput
    obtain ⟨ht', hidx', hlast'⟩ := cpePut1_holds hcap ht hput
    refine ⟨?_, ?_, hlast'.trans hlast⟩
    · rwa [map_append, map_singleton, ← append_assoc]
    · rw [hidx', hidx, length_append, length_singleton]
      omega
  · exact ⟨by rwa [map_nil, append_nil], rfl, rfl⟩

theorem map_range_getD (ws : List ℕ) : (range ws.length).map (fun j => ws.getD j 0) = ws := by
  refine ext_getElem (by rw [length_map, length_range]) fun j _ hj => ?_
  rw [getElem_map, getElem_range, getD_eq_getElem _ _ hj]

theorem words_copied (i : ℕ) (ws : List ℕ) :
    (range (i + ws.length)).map (storeWords p i ws) = (range i).map p ++ ws := by
  have hlow : (range i).map (storeWords p i ws) = (range i).map p := by
    refine map_congr_left fun k hk => ?_
    have hk' := mem_range.1 hk
    exact if_neg (by omega)
  have hhigh : (range ws.length).map (fun j => storeWords p i ws (i + j)) = ws := by
    conv_rhs => rw [← map_range_getD ws]
    refine map_congr_left fun j hj => ?_
    have hj' := mem_range.1 hj
    have hin : i ≤ i + j ∧ i + j < i + ws.length := by omega
    rw [storeWords, if_pos hin, Nat.add_sub_cancel_left]
  rw [range_add, map_append, map_map, hlow]
  show _ ++ (range ws.length).map (fun j => storeWords p i ws (i + j)) = _
  rw [hhigh]

theorem words_stored (i h c : ℕ) (ws : List ℕ) (hi : i + 1 < 2 ^ 32) :
    (range (i + 2 + ws.length)).map
      (storeWords (Function.update (Function.update p i h) (u32 (i + 1)) c) (i + 2) ws) =
      (range i).map p ++ h :: c :: ws := by
  rw [words_copied, u32_eq hi, map_range_update_last _ (i + 1) c, map_range_update_last p i h]
  simp

/-- A packed access, stored without the packetizer. -/
theorem store_holds {h c : ℕ} {ws : List ℕ} (hs : s.Holds cap accs) (hws : ws.length ≤ 4)
    (hroom : u32 (s.out.idx + 2 + ws.length) ≤ cap) :
    (s.store h c ws).Holds cap (accs ++ [⟨h, c, ws⟩]) := by
  have hlen : accLen [⟨h, c, ws⟩] = ws.length + 2 := by
    rw [accLen, flatMap_singleton, Access.words, length_cons, length_cons]
  have hidx := hs.idx
  refine ⟨?_, hroom, fun hfit => ?_, ?_, fun hsmall => ?_⟩
  · show u32 (s.out.idx + 2 + ws.length) = _
    rw [accLen_append, hlen, hidx]
    unfold u32
    omega
  · rw [accLen_append, hlen] at hfit
    rw [u32_eq (by omega)] at hidx
    rw [flatMap_append, ← hs.words (by omega), flatMap_singleton]
    show (range (u32 (s.out.idx + 2 + ws.length))).map _ = _
    rw [u32_eq (by omega)]
    exact words_stored s.out.p s.out.idx h c ws (by omega)
  · show u32 (s.acc + 1) = _
    rw [hs.acc, length_append, length_singleton]
    unfold u32
    omega
  · have hle := hs.fits hsmall
    rw [u32_eq (by omega)] at hidx
    rw [u32_eq (by omega)] at hroom
    rw [accLen_append, hlen, ← hidx]
    omega

end Steps

/-! ### A segment -/

variable {accs : List Access}

section Segment

variable {cap hdr : ℕ} {byte : ℕ → ℕ} {ph : Phdr} {addr : ℕ}

theorem leWord_congr {f g : ℕ → ℕ} (h : ∀ b < 4, f b = g b) : leWord f = leWord g := by
  rw [leWord, leWord, h 0 (by decide), h 1 (by decide), h 2 (by decide), h 3 (by decide)]

theorem chunk_lt_iff {c : ℕ} : c < chunkCount (segCount ph) ↔ 16 * c < ph.filesz := by
  unfold chunkCount segCount
  omega

theorem chunkAccess_data (f : ℕ → ℕ) (n c : ℕ) : (chunkAccess hdr addr (some f) n c).data =
    (range (min 4 (n - 4 * c))).map fun j => f (4 * c + j) := rfl

theorem chunkData_eq {c : ℕ} (hc : c < chunkCount (segCount ph)) :
    chunkData byte (ph.offset + 16 * c) (min (ph.filesz - 16 * c) 16) =
      (chunkAccess hdr addr (some (segWord byte ph)) (segCount ph) c).data := by
  have hlt := chunk_lt_iff.1 hc
  have hlen : (min (ph.filesz - 16 * c) 16 + 3) / 4 = min 4 (segCount ph - 4 * c) := by
    unfold segCount
    omega
  rw [chunkData, hlen, chunkAccess_data]
  refine map_congr_left fun j hj => ?_
  have hj' := mem_range.1 hj
  rw [segWord]
  refine leWord_congr fun b hb => ?_
  have hiff : 4 * j + b < min (ph.filesz - 16 * c) 16 ↔ 4 * (4 * c + j) + b < ph.filesz := by omega
  have hat : ph.offset + 16 * c + (4 * j + b) = ph.offset + (4 * (4 * c + j) + b) := by omega
  rw [hat, if_congr hiff rfl rfl]

/-- The control word of a chunk is that of the packetizer for the same words. -/
theorem chunkCtrl_eq {c : ℕ} {ws : List ℕ}
    (hws : ws = (chunkAccess hdr addr (some (segWord byte ph)) (segCount ph) c).data) :
    (⟨hdr, cpeCtrlWord ((((ws.length - 1) &&& 0x3) <<< 20) ||| (u32 (addr + 16 * c) &&& 0xFFFFF)),
      ws⟩ : Access) =
      chunkAccess hdr addr (some (segWord byte ph)) (segCount ph) c := by
  have hlen : ws.length = min 4 (segCount ph - 4 * c) := by
    rw [hws, chunkAccess, mkAccess, length_map, length_range]
  have hps : ws.length - 1 < 4 := by omega
  have hmod : (addr + 16 * c) % 2 ^ 20 < 2 ^ 20 := Nat.mod_lt _ (by decide)
  have haddr : u32 (addr + 16 * c) &&& 0xFFFFF = (addr + 16 * c) % 2 ^ 20 := by
    rw [show (0xFFFFF : ℕ) = 2 ^ 20 - 1 from rfl, and_mask]
    unfold u32
    omega
  have hand : (ws.length - 1) &&& 0x3 = ws.length - 1 := by
    rw [show (0x3 : ℕ) = 2 ^ 2 - 1 from rfl, and_mask]
    exact Nat.mod_eq_of_lt hps
  have hctrl : (chunkAccess hdr addr (some (segWord byte ph)) (segCount ph) c).ctrl =
      cpeCtrlWord ((addr + 16 * c) % 2 ^ 20 + (ws.length - 1) * 2 ^ 20) := by
    rw [chunkAccess, mkAccess_ctrl, length_map, length_range, hlen]
  rw [hand, haddr, Nat.lor_comm, or_shiftLeft_eq_add hmod, ← hctrl, hws]
  rfl

theorem cpeSegLoop_step {fuel c : ℕ} {ws : List ℕ} {s : Enc} (hfs : ph.filesz ≤ 2 ^ 32 - 16)
    (hc : c < chunkCount (segCount ph)) : cpeSegLoop cap hdr byte ph addr (fuel + 1) (16 * c) ws s =
      if u32 (s.out.idx + 2 + (chunkAccess hdr addr (some (segWord byte ph))
        (segCount ph) c).data.length) > cap then none
      else cpeSegLoop cap hdr byte ph addr fuel (16 * (c + 1))
        (chunkAccess hdr addr (some (segWord byte ph)) (segCount ph) c).data
        (s.store hdr (chunkAccess hdr addr (some (segWord byte ph)) (segCount ph) c).ctrl
          (chunkAccess hdr addr (some (segWord byte ph)) (segCount ph) c).data) := by
  have hlt := chunk_lt_iff.1 hc
  have hnext : u32 (16 * c + 16) = 16 * (c + 1) := by rw [u32_eq (by omega)]; omega
  rw [cpeSegLoop, if_pos hlt]
  dsimp only
  rw [hnext, chunkData_eq hc, congrArg Access.ctrl (chunkCtrl_eq rfl).symm]

/-- The loop from chunk `c` on. The words of the last chunk stay for the return. -/
theorem cpeSegLoop_holds (hfs : ph.filesz ≤ 2 ^ 32 - 16) :
    ∀ (fuel c : ℕ) (ws : List ℕ) (s : Enc) (r : ℕ × List ℕ × Enc), c ≤ chunkCount (segCount ph) →
    s.Holds cap (accs ++ plainAccs hdr addr (some (segWord byte ph)) (segCount ph) c) →
    cpeSegLoop cap hdr byte ph addr fuel (16 * c) ws s = some r →
    r.2.2.Holds cap (accs ++ segAccs byte hdr (ph, addr)) ∧ r.1 = 16 * chunkCount (segCount ph) ∧
      r.2.1 = (if c < chunkCount (segCount ph) then
        (chunkAccess hdr addr (some (segWord byte ph)) (segCount ph)
          (chunkCount (segCount ph) - 1)).data else ws) ∧
      r.2.2.lastAddr = s.lastAddr ∧ r.2.2.lastVal = s.lastVal := by
  intro fuel
  induction fuel with
  | zero =>
    intro c ws s r _ _ hrun
    cases hrun
  | succ fuel ih =>
    intro c ws s r hle hs hrun
    rcases Nat.eq_or_lt_of_le hle with hdone | hlt
    · have hstop : ¬16 * c < ph.filesz := fun h => absurd (chunk_lt_iff.2 h) (by omega)
      rw [cpeSegLoop, if_neg hstop] at hrun
      obtain rfl := Option.some.inj hrun
      subst hdone
      exact ⟨hs, rfl, (if_neg (lt_irrefl _)).symm, rfl, rfl⟩
    · rw [cpeSegLoop_step hfs hlt] at hrun
      by_cases hroom : u32 (s.out.idx + 2 +
          (chunkAccess hdr addr (some (segWord byte ph)) (segCount ph) c).data.length) ≤ cap
      · rw [if_neg (not_lt.2 hroom)] at hrun
        have hlen : (chunkAccess hdr addr (some (segWord byte ph)) (segCount ph) c).data.length ≤ 4 := by
          rw [chunkAccess_data, length_map, length_range]
          exact min_le_left ..
        have hs₁ := @store_holds cap s _ hdr
          (chunkAccess hdr addr (some (segWord byte ph)) (segCount ph) c).ctrl _ hs hlen hroom
        rw [append_assoc] at hs₁
        obtain ⟨hs', hoff, hws, ha, hv⟩ := ih (c + 1) _ _ r hlt
          (by rw [plainAccs, range_succ, map_append, ← plainAccs]; exact hs₁) hrun
        refine ⟨hs', hoff, ?_, ha, hv⟩
        rw [hws, if_pos hlt]
        by_cases hlast : c + 1 < chunkCount (segCount ph)
        · rw [if_pos hlast]
        · have heq : c = chunkCount (segCount ph) - 1 := by omega
          rw [if_neg hlast, ← heq]
      · rw [if_pos (Nat.lt_of_not_le hroom)] at hrun
        cases hrun

/-- The loop over a segment of more than `2^32 - 16` bytes never ends by itself. -/
theorem cpeSegLoop_endless (hfs : 2 ^ 32 - 16 < ph.filesz) : ∀ (fuel off : ℕ) (ws : List ℕ) (s : Enc),
    off % 16 = 0 → off < 2 ^ 32 → cpeSegLoop cap hdr byte ph addr fuel off ws s = none := by
  intro fuel
  induction fuel with
  | zero => exact fun off ws s _ _ => rfl
  | succ fuel ih =>
    intro off ws s hoff hlt
    rw [cpeSegLoop, if_pos (by omega)]
    dsimp only
    split
    · rfl
    · exact ih _ _ _ (by unfold u32; omega) (Nat.mod_lt _ (by decide))

/-- The last word of the last chunk is the last word of the segment. -/
theorem lastChunk_eq {ws : List ℕ} (hpos : 0 < ph.filesz)
    (hws : ws = (chunkAccess hdr addr (some (segWord byte ph)) (segCount ph)
      (chunkCount (segCount ph) - 1)).data) :
    ws.length = segCount ph - 4 * (chunkCount (segCount ph) - 1) ∧
    4 * (chunkCount (segCount ph) - 1) < segCount ph ∧
      ws.getD (ws.length - 1) 0 = segWord byte ph (segCount ph - 1) := by
  have hcount : 0 < chunkCount (segCount ph) := chunk_lt_iff.2 (by omega)
  rw [chunkAccess_data] at hws
  have hseg : 4 * (chunkCount (segCount ph) - 1) < segCount ph := chunkCount_iff.1 (by omega)
  have hlen : ws.length = segCount ph - 4 * (chunkCount (segCount ph) - 1) := by
    rw [hws, length_map, length_range]
    unfold chunkCount
    omega
  refine ⟨hlen, hseg, ?_⟩
  have hlt : ws.length - 1 < ws.length := by omega
  rw [getD_eq_getElem _ _ hlt]
  simp only [hws, getElem_map, getElem_range, length_map, length_range]
  congr 1
  unfold chunkCount at hseg ⊢
  omega

/-- **A segment adds its accesses** and leaves its last word as the last one loaded. -/
theorem cpeSeg_holds {fuel : ℕ} {s s' : Enc} (hpos : ph.filesz ≠ 0) (hs : s.Holds cap accs)
    (hrun : cpeSeg cap hdr byte ph addr fuel s = some s') :
    s'.Holds cap (accs ++ segAccs byte hdr (ph, addr)) ∧ s'.last = segLast byte (ph, addr) := by
  obtain ⟨⟨off, ws, s₁⟩, hloop, hs'⟩ := Option.map_eq_some_iff.1 hrun
  have hfs : ph.filesz ≤ 2 ^ 32 - 16 := by
    by_contra hbig
    rw [cpeSegLoop_endless (Nat.lt_of_not_le hbig) fuel 0 [] s rfl (by decide)] at hloop
    exact nomatch hloop
  have hcount : 0 < chunkCount (segCount ph) := chunk_lt_iff.2 (by omega)
  obtain ⟨hh, hoff, hws, ha, hv⟩ := cpeSegLoop_holds hfs fuel 0 [] s _ (Nat.zero_le _)
    (by rw [plainAccs, range_zero, map_nil, append_nil]; exact hs) hloop
  dsimp only at hh hoff hws ha hv hs'
  rw [if_pos hcount] at hws
  obtain ⟨hlen, hseg, hword⟩ := lastChunk_eq (by omega) hws
  have hsub : u32sub off 16 = 16 * (chunkCount (segCount ph) - 1) := by
    have hle : off ≤ 2 ^ 32 - 16 := by
      rw [hoff]
      unfold chunkCount segCount
      omega
    rw [u32sub_eq (by omega) (by omega), hoff]
    omega
  have haddr : addr + u32sub off 16 + (ws.length - 1) * 4 = addr + 4 * (segCount ph - 1) := by
    rw [hsub, hlen]
    omega
  have hne : ¬ws.length = 0 := by omega
  rw [if_neg hne] at hs'
  subst hs'
  refine ⟨⟨hh.idx, hh.room, hh.words, hh.acc, hh.fits⟩, ?_⟩
  rw [Enc.last, segLast, hword, haddr]

end Segment

/-! ### The program headers -/

section Phdrs

variable {cap hdr : ℕ} {d : CpeDev} {col row : ℤ} {byte : ℕ → ℕ} {fuel : ℕ}

theorem loaded_append (phs phs' : List Phdr) :
    loaded d row (phs ++ phs') = loaded d row phs ++ loaded d row phs' := by
  unfold loaded owned
  rw [filter_append, filterMap_append, filter_append]

theorem loaded_skip {ph : Phdr} (h : ph.type ≠ PT_LOAD ∨ ph.filesz = 0) : loaded d row [ph] = [] := by
  have hload : ph.loadable = false := by
    rw [Phdr.loadable, decide_eq_false_iff_not]
    rintro ⟨h1, h2⟩
    exact h.elim (absurd h1) fun h0 => h2 h0
  rw [loaded, owned, filter_cons_of_neg (by simp [hload])]
  rfl

theorem owned_some {ph : Phdr} (h : ¬(ph.type ≠ PT_LOAD ∨ ph.filesz = 0)) :
    owned d row [ph] = ((ownAddr d row ph.paddr).map fun a => (ph, a)).toList := by
  have hload : ph.loadable = true := by
    rw [Phdr.loadable, decide_eq_true_iff]
    exact ⟨by_contra fun h1 => h (.inl h1), fun h0 => h (.inr h0)⟩
  rw [owned, filter_cons_of_pos hload, filter_nil]
  cases hown : ownAddr d row ph.paddr <;> simp [hown]

theorem loaded_single {ph : Phdr} (h : ¬(ph.type ≠ PT_LOAD ∨ ph.filesz = 0)) {addr : ℕ}
    (htgt : rtCpeTarget d col row ph.paddr = some addr) :
    loaded d row [ph] = if addr = RT_CPE_SKIP_ADDR then [] else [(ph, addr)] := by
  rw [loaded, owned_some h]
  cases hown : ownAddr d row ph.paddr with
  | none => rw [if_pos (rtCpeTarget_other hown htgt)]; rfl
  | some a =>
    obtain rfl := Option.some.inj ((rtCpeTarget_own hown).symm.trans htgt)
    by_cases hmark : a = RT_CPE_SKIP_ADDR
    · rw [if_pos hmark]
      exact filter_cons_of_neg (by simp [hmark])
    · rw [if_neg hmark]
      exact filter_cons_of_pos (by simp [hmark])

variable {seg : Phdr → ℕ → Enc → Option Enc}

/-- **The loop over the program headers**, in every encoder: what each segment keeps holds
of all segments for this tile, in order. -/
theorem phdrs_rule {I : List (Phdr × ℕ) → Enc → Prop}
    (hseg : ∀ done s ph addr s', I done s → ph.filesz ≠ 0 → seg ph addr s = some s' →
      I (done ++ [(ph, addr)]) s')
    {phs : List Phdr} {s s' : Enc} (hI : I [] s)
    (hrun : phs.foldlM (phdrStep (rtCpeTarget d col row) seg) s = some s') :
    I (loaded d row phs) s' := by
  refine foldlM_rule (I := fun done t => I (loaded d row done) t) ?_ phs [] s s' hI hrun
  intro done t ph t' ht hstep
  rw [loaded_append]
  rw [phdrStep] at hstep
  by_cases hskip : ph.type ≠ PT_LOAD ∨ ph.filesz = 0
  · rw [if_pos hskip] at hstep
    obtain rfl := Option.some.inj hstep
    rwa [loaded_skip hskip, append_nil]
  · rw [if_neg hskip] at hstep
    obtain ⟨addr, htgt, hstep⟩ := Option.bind_eq_some_iff.1 hstep
    rw [loaded_single hskip htgt]
    by_cases hmark : addr = RT_CPE_SKIP_ADDR
    · rw [if_pos hmark] at hstep ⊢
      obtain rfl := Option.some.inj hstep
      rwa [append_nil]
    · rw [if_neg hmark] at hstep ⊢
      exact hseg _ _ _ _ _ ht (fun h0 => hskip (.inr h0)) hstep

/-- The packed encoder over all program headers. -/
theorem packed_rule
    (hcpe : seg = fun ph addr => cpeSeg cap hdr byte ph addr fuel) {phs : List Phdr} {s s' : Enc}
    (hs : s.Holds cap accs) (hrun : phs.foldlM (phdrStep (rtCpeTarget d col row) seg) s = some s') :
    s'.Holds cap (accs ++ (loaded d row phs).flatMap (segAccs byte hdr)) ∧
      s'.last = ((loaded d row phs).map (segLast byte)).getLast?.getD s.last := by
  subst hcpe
  refine phdrs_rule (I := fun done t => t.Holds cap (accs ++ done.flatMap (segAccs byte hdr)) ∧
    t.last = (done.map (segLast byte)).getLast?.getD s.last) ?_ ?_ hrun
  · rintro done t ph addr t' ⟨ht, _⟩ hpos hseg
    obtain ⟨ht', hlast⟩ := cpeSeg_holds hpos ht hseg
    rw [flatMap_append, flatMap_singleton, ← append_assoc, map_append, map_singleton,
      getLast?_concat]
    exact ⟨ht', hlast⟩
  · exact ⟨by rwa [flatMap_nil, append_nil], rfl⟩

end Phdrs

end AieHlc.Elf
