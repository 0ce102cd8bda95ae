import AieHlc.Packet.Pktize

/-!
# Framing of reads

Model of `rt_ctrl_chunk_words`, `__Runtime_ctrl_pktize_read` and `rt_ctrl_read_extract`
(`aie_runtime.c`). A block of words is read by accesses of up to four words that stay in a 16-byte
block. The response keeps a header word for each access; the extractor computes the same accesses
again and leaves the headers out.

* `rtCtrlChunkWords`, `chunkSizes`: the words of one access and of all of them.
* `runtimeCtrlPktizeRead`: the request; `rtCtrlReadExtract`: the data words of a response.
* `Frames`: sizes that cut a block into accesses.
* `read_framing`: the request asks for the block, and the response gives it back.
-/

namespace AieHlc.Packet

open List AieHlc.Word

/-- `rt_ctrl_words_to_boundary`, which is `cpe_words_to_boundary`. -/
def rtCtrlWordsToBoundary : ℕ → ℕ := cpeWordsToBoundary

/-- `rt_ctrl_chunk_words`. -/
def rtCtrlChunkWords (tileAddr nwords w : ℕ) : ℕ :=
  let byteAddr := u32 (tileAddr + u32 (w * 4))
  let chunk := u32sub nwords w
  let toBnd := rtCtrlWordsToBoundary byteAddr
  let chunk := if chunk > 4 then 4 else chunk
  if chunk > toBnd then toBnd else chunk

section Model

variable (cap req ret addr nwords : ℕ)

/-- The two header words of the access of `chunk` words at word `w`. -/
def readWords (w chunk : ℕ) : List ℕ :=
  [withParity runtimePktParity (req &&& 0x1F),
    withParity runtimePktParity ((u32 (addr + u32 (w * 4)) &&& 0xFFFFF) ||| (((chunk - 1) &&& 0x3) <<< 20) |||
      (0x1 <<< 22) ||| ((ret &&& 0x1F) <<< 24))]

/-- The loop of `__Runtime_ctrl_pktize_read` from word `w` on: `none` out of fuel, `error` for the
return with length 0 on overflow. -/
def readLoop : ℕ → ℕ → Out → ℕ → Option (Except (ℕ → ℕ) (Out × ℕ))
  | 0, _, _, _ => none
  | fuel + 1, w, o, resp =>
    if w < nwords then
      let chunk := rtCtrlChunkWords addr nwords w
      if u32 (o.idx + 2) > cap then some (.error o.p)
      else readLoop fuel (u32 (w + chunk)) (o.pushes (readWords req ret addr w chunk))
        (u32 (resp + (1 + chunk)))
    else some (.ok (o, resp))

/-- `__Runtime_ctrl_pktize_read`: the length, the buffer and `*resp_words_out`, which overflow
leaves alone. Every round takes a word, so that one more than their number is fuel enough. -/
def runtimeCtrlPktizeRead (out : ℕ → ℕ) : Option (ℕ × (ℕ → ℕ) × Option ℕ) :=
  (readLoop cap req ret addr nwords (nwords + 1) 0 ⟨0, out⟩ 0).map fun r =>
    match r with
    | .error p => (0, p, none)
    | .ok (o, resp) => (o.idx, o.p, some resp)

/-- The data words of one access go to `out` from word `w` on. -/
def extractChunk (resp : ℕ → ℕ) (w ridx chunk : ℕ) (out : ℕ → ℕ) : ℕ → ℕ :=
  (range chunk).foldl (fun out j => Function.update out (w + j) (resp (ridx + j))) out

/-- The loop of `rt_ctrl_read_extract` from word `w` on. -/
def extractLoop (resp : ℕ → ℕ) : ℕ → ℕ → ℕ → (ℕ → ℕ) → Option (ℕ → ℕ)
  | 0, _, _, _ => none
  | fuel + 1, w, ridx, out =>
    if w < nwords then
      let chunk := rtCtrlChunkWords addr nwords w
      extractLoop resp fuel (u32 (w + chunk)) (u32 (ridx + 1 + chunk))
        (extractChunk resp w (u32 (ridx + 1)) chunk out)
    else some out

/-- `rt_ctrl_read_extract`: `out_data` afterwards. -/
def rtCtrlReadExtract (resp out : ℕ → ℕ) : Option (ℕ → ℕ) := extractLoop addr nwords resp (nwords + 1) 0 0 out

/-- The words of the accesses from word `w` on. -/
def chunkSizes : ℕ → ℕ → List ℕ
  | 0, _ => []
  | fuel + 1, w =>
    if w < nwords then
      rtCtrlChunkWords addr nwords w :: chunkSizes fuel (w + rtCtrlChunkWords addr nwords w)
    else []

end Model

/-! ## What the accesses are -/

/-- The sizes cut the words from `w` on into accesses, none of which crosses a 16-byte block. -/
def Frames (addr nwords : ℕ) : ℕ → List ℕ → Prop
  | w, [] => w = nwords
  | w, c :: cs => 1 ≤ c ∧ c ≤ 4 ∧ (addr + 4 * w) / 16 = (addr + 4 * (w + c) - 1) / 16 ∧
    Frames addr nwords (w + c) cs

/-- The address field and the size of each access. -/
def readBlocks (addr : ℕ) : ℕ → List ℕ → List (ℕ × ℕ)
  | _, [] => []
  | w, c :: cs => ((addr + 4 * w) % 2 ^ 20, c) :: readBlocks addr (w + c) cs

/-- A request is read back two words at a time: address, size, operation and return id of each access. -/
def readRequests : List ℕ → Option (List (ℕ × ℕ × ℕ × ℕ))
  | [] => some []
  | [_] => none
  | _ :: ctrl :: rest =>
    (readRequests rest).map ((hdrAddr ctrl, hdrBeats ctrl, hdrOp ctrl, hdrRet ctrl) :: ·)

/-- A response: for each access a header word and its data words. -/
def response (hdrs data : ℕ → ℕ) : ℕ → List ℕ → List ℕ
  | _, [] => []
  | w, c :: cs => hdrs w :: ((range c).map fun j => data (w + j)) ++ response hdrs data (w + c) cs

section Chunks

variable {addr nwords w : ℕ}

theorem chunkWords_spec (haddr : addr % 4 = 0) (hn : nwords < 2 ^ 32) (hw : w < nwords) :
    1 ≤ rtCtrlChunkWords addr nwords w ∧ rtCtrlChunkWords addr nwords w ≤ 4 ∧
      w + rtCtrlChunkWords addr nwords w ≤ nwords ∧
      (addr + 4 * w) % 16 + 4 * rtCtrlChunkWords addr nwords w ≤ 16 := by
  have hbyte : u32 (addr + u32 (w * 4)) % 16 = (addr + 4 * w) % 16 := by
    unfold u32
    omega
  have hbnd : cpeWordsToBoundary (u32 (addr + u32 (w * 4))) = (16 - (addr + 4 * w) % 16) / 4 := by
    rw [cpeWordsToBoundary, show (0xF : ℕ) = 2 ^ 4 - 1 from rfl, and_mask, show (2 : ℕ) ^ 4 = 16
      from rfl, hbyte,
      if_pos (by omega)]
  unfold rtCtrlChunkWords rtCtrlWordsToBoundary
  dsimp only
  rw [hbnd, u32sub_eq (by omega) hn]
  split_ifs <;> omega

theorem frames_chunkSizes (haddr : addr % 4 = 0) (hn : nwords < 2 ^ 32) (fuel : ℕ) (hw : w ≤ nwords)
    (hfuel : nwords - w ≤ fuel) : Frames addr nwords w (chunkSizes addr nwords fuel w) := by
  induction fuel generalizing w with
  | zero =>
    show w = nwords
    omega
  | succ fuel ih =>
    unfold chunkSizes
    by_cases hlt : w < nwords
    · obtain ⟨h1, h4, hle, hblock⟩ := chunkWords_spec haddr hn hlt
      rw [if_pos hlt]
      exact ⟨h1, h4, by omega, ih hle (by omega)⟩
    · rw [if_neg hlt]
      show w = nwords
      omega

end Chunks

/-! ## The request -/

/-- The words of the accesses from word `w` on. -/
def requestWords (req ret addr : ℕ) : ℕ → List ℕ → List ℕ
  | _, [] => []
  | w, c :: cs => readWords req ret addr w c ++ requestWords req ret addr (w + c) cs

section Request

variable {cap req ret addr nwords : ℕ}

theorem readWords_fields {w c : ℕ} (hc : 1 ≤ c) (hc4 : c ≤ 4) : ∃ ctrl, readWords req ret addr w c =
    [withParity runtimePktParity (req &&& 0x1F), ctrl] ∧ hdrAddr ctrl = (addr + 4 * w) % 2 ^ 20 ∧
    hdrBeats ctrl = c ∧
      hdrOp ctrl = 1 ∧ hdrRet ctrl = ret % 32 := by
  have haddr : (addr + 4 * w) % 2 ^ 20 < 2 ^ 20 := Nat.mod_lt _ (by decide)
  have hand : (c - 1) &&& 0x3 = c - 1 := by
    rw [show (0x3 : ℕ) = 2 ^ 2 - 1 from rfl, and_mask]
    omega
  have hret : ret &&& 0x1F = ret % 32 := and_mask ret 5
  have hsum : (u32 (addr + u32 (w * 4)) &&& 0xFFFFF) ||| (((c - 1) &&& 0x3) <<< 20) ||| (0x1 <<< 22) |||
      ((ret &&& 0x1F) <<< 24) = (addr + 4 * w) % 2 ^ 20 + (c - 1) * 2 ^ 20 + 1 * 2 ^ 22 +
        ret % 32 * 2 ^ 24 := by
    have hlow : (addr + 4 * w) % 2 ^ 20 + (c - 1) * 2 ^ 20 < 2 ^ 22 := by omega
    rw [addrField_eq, hand, hret, or_shiftLeft_eq_add haddr, or_shiftLeft_eq_add hlow,
      or_shiftLeft_eq_add (by omega)]
  have hword : withParity runtimePktParity ((addr + 4 * w) % 2 ^ 20 + (c - 1) * 2 ^ 20 + 1 * 2 ^ 22 +
      ret % 32 * 2 ^ 24) = (addr + 4 * w) % 2 ^ 20 + (c - 1) * 2 ^ 20 + 1 * 2 ^ 22 + ret % 32 * 2 ^ 24 +
        cpeParity ((addr + 4 * w) % 2 ^ 20 + (c - 1) * 2 ^ 20 + 1 * 2 ^ 22 + ret % 32 * 2 ^ 24) * 2 ^ 31 := by
    rw [withParity, runtimePktParity_eq]
    exact cpeCtrlWord_eq (by omega)
  refine ⟨_, rfl, ?_⟩
  rw [hsum, hword, hdrAddr_eq, hdrBeats_eq, hdrOp_eq, hdrRet, show (0x1F : ℕ) = 2 ^ 5 - 1 from rfl, and_mask,
    Nat.shiftRight_eq_div_pow]
  refine ⟨?_, ?_, ?_, ?_⟩ <;> omega

theorem readRequests_words {w : ℕ} {cs : List ℕ} (h : Frames addr nwords w cs) :
    readRequests (requestWords req ret addr w cs) =
      some ((readBlocks addr w cs).map fun b => (b.1, b.2, 1, ret % 32)) := by
  induction cs generalizing w with
  | nil => rfl
  | cons c cs ih =>
    obtain ⟨h1, h4, _, hrest⟩ := h
    obtain ⟨ctrl, hwords, haddr, hbeats, hop, hret⟩ := @readWords_fields req ret addr w c h1 h4
    rw [requestWords, hwords, cons_append, cons_append, nil_append, readRequests, ih hrest, haddr, hbeats,
      hop, hret]
    rfl

/-- **The loop of the request** ends, and without overflow has written the accesses and counted
their response. -/
theorem readLoop_spec (haddr : addr % 4 = 0) (hn : nwords < 2 ^ 28) (fuel : ℕ) :
    ∀ (w : ℕ) (o : Out) (resp : ℕ), w ≤ nwords → nwords - w < fuel → o.idx ≤ 2 * w → resp ≤ 2 * w →
    ∃ r, readLoop cap req ret addr nwords fuel w o resp = some r ∧ ∀ o' resp', r = .ok (o', resp') →
      o'.words = o.words ++ requestWords req ret addr w (chunkSizes addr nwords fuel w) ∧
      resp' = resp + ((chunkSizes addr nwords fuel w).map (1 + ·)).sum := by
  induction fuel with
  | zero => exact fun w o resp _ hfuel => absurd hfuel (Nat.not_lt_zero _)
  | succ fuel ih =>
    intro w o resp hw hfuel hidx hresp
    unfold readLoop chunkSizes
    by_cases hlt : w < nwords
    · rw [if_pos hlt, if_pos hlt]
      obtain ⟨h1, h4, hle, _⟩ := chunkWords_spec haddr (by omega) hlt
      generalize rtCtrlChunkWords addr nwords w = c at h1 h4 hle
      dsimp only
      split
      · exact ⟨_, rfl, fun o' resp' h => by cases h⟩
      · have hlen : (readWords req ret addr w c).length = 2 := rfl
        have hnext : u32 (w + c) = w + c := u32_eq (by omega)
        have hidx' : (o.pushes (readWords req ret addr w c)).idx = o.idx + 2 := by
          rw [pushes_idx _ _ (by omega), hlen, u32_eq (by omega)]
        rw [hnext, u32_eq (show resp + (1 + c) < 2 ^ 32 by omega)]
        obtain ⟨r, hrun, hspec⟩ := ih (w + c) (o.pushes (readWords req ret addr w c))
          (resp + (1 + c)) hle (by omega)
          (by omega) (by omega)
        refine ⟨r, hrun, fun o' resp' hr => ?_⟩
        obtain ⟨hwords, hsum⟩ := hspec o' resp' hr
        constructor
        · rw [hwords, pushes_words _ _ (by omega), append_assoc]
          rfl
        · rw [hsum, map_cons, sum_cons, add_assoc]
    · rw [if_neg hlt, if_neg hlt]
      refine ⟨_, rfl, fun o' resp' h => ?_⟩
      obtain ⟨rfl, rfl⟩ := Prod.mk.inj (Except.ok.inj h)
      exact ⟨(append_nil _).symm, rfl⟩

end Request

/-! ## The response -/

section Response

variable {addr nwords : ℕ} {resp : ℕ → ℕ}

theorem extractChunk_apply (resp : ℕ → ℕ) (w ridx c : ℕ) (out : ℕ → ℕ) (k : ℕ) :
    extractChunk resp w ridx c out k = if w ≤ k ∧ k < w + c then resp (ridx + (k - w)) else out k := by
  unfold extractChunk
  induction c with
  | zero =>
    rw [if_neg (by omega)]
    rfl
  | succ c ih =>
    rw [range_succ, foldl_append, foldl_cons, foldl_nil, Function.update_apply, ih]
    by_cases hk : k = w + c
    · rw [if_pos hk, if_pos (by omega), hk, Nat.add_sub_cancel_left]
    · rw [if_neg hk]
      exact if_congr (by omega) rfl rfl

theorem response_getD (hdrs data : ℕ → ℕ) (pre : List ℕ) (w c : ℕ) (cs : List ℕ) {j : ℕ} (hj : j < c) :
    (pre ++ response hdrs data w (c :: cs)).getD (pre.length + 1 + j) 0 = data (w + j) := by
  have hlen : j < ((range c).map fun j => data (w + j)).length := by simpa using hj
  rw [response, getD_append_right _ _ _ _ (by omega), cons_append,
    show pre.length + 1 + j - pre.length = j + 1 by omega, getD_cons_succ, getD_append _ _ _ _ hlen,
    getD_eq_getElem _ _ hlen, getElem_map, getElem_range]

theorem extractLoop_step (haddr : addr % 4 = 0) (hn : nwords < 2 ^ 28) {fuel w ridx : ℕ} (hlt : w < nwords)
    (hridx : ridx ≤ 2 * w) (out : ℕ → ℕ) : extractLoop addr nwords resp (fuel + 1) w ridx out =
      extractLoop addr nwords resp fuel (w + rtCtrlChunkWords addr nwords w)
        (ridx + 1 + rtCtrlChunkWords addr nwords w)
        (extractChunk resp w (ridx + 1) (rtCtrlChunkWords addr nwords w) out) := by
  obtain ⟨_, h4, hle, _⟩ := chunkWords_spec haddr (by omega) hlt
  have hw : u32 (w + rtCtrlChunkWords addr nwords w) = w + rtCtrlChunkWords addr nwords w := u32_eq (by omega)
  have hskip : u32 (ridx + 1) = ridx + 1 := u32_eq (by omega)
  have hnext : u32 (ridx + 1 + rtCtrlChunkWords addr nwords w) = ridx + 1 + rtCtrlChunkWords addr nwords w :=
    u32_eq (by omega)
  rw [extractLoop, if_pos hlt]
  dsimp only
  rw [hw, hskip, hnext]

/-- **The extractor** gives the data words back, whatever the headers are. -/
theorem extractLoop_spec (haddr : addr % 4 = 0) (hn : nwords < 2 ^ 28) (hdrs data : ℕ → ℕ) (fuel : ℕ) :
    ∀ (w : ℕ) (pre : List ℕ) (out : ℕ → ℕ), w ≤ nwords → nwords - w < fuel → pre.length ≤ 2 * w →
    ∃ out', extractLoop addr nwords
      (fun i => (pre ++ response hdrs data w (chunkSizes addr nwords fuel w)).getD i 0)
        fuel w pre.length out = some out' ∧ ∀ k, out' k = if w ≤ k ∧ k < nwords then data k else out k := by
  induction fuel with
  | zero => exact fun w pre out _ hfuel => absurd hfuel (Nat.not_lt_zero _)
  | succ fuel ih =>
    intro w pre out hw hfuel hpre
    by_cases hlt : w < nwords
    · obtain ⟨h1, h4, hle, _⟩ := chunkWords_spec haddr (show nwords < 2 ^ 32 by omega) hlt
      rw [extractLoop_step haddr hn hlt hpre, chunkSizes, if_pos hlt]
      generalize rtCtrlChunkWords addr nwords w = c at h1 h4 hle
      -- the accesses after this one see its words as words before them
      have hsplit : pre ++ response hdrs data w (c :: chunkSizes addr nwords fuel (w + c)) =
          (pre ++ hdrs w :: (range c).map fun j => data (w + j)) ++
            response hdrs data (w + c) (chunkSizes addr nwords fuel (w + c)) := by
        rw [response, append_assoc]
      have hlen : (pre ++ hdrs w :: (range c).map fun j => data (w + j)).length = pre.length + 1 + c := by
        rw [length_append, length_cons, length_map, length_range, add_comm c 1, add_assoc]
      obtain ⟨out', hrun, hout⟩ := ih (w + c) (pre ++ hdrs w :: (range c).map fun j => data (w + j))
        (extractChunk (fun i => (pre ++ response hdrs data w
          (c :: chunkSizes addr nwords fuel (w + c))).getD i 0) w
          (pre.length + 1) c out) hle (by omega) (by omega)
      rw [← hsplit, hlen] at hrun
      refine ⟨out', hrun, fun k => ?_⟩
      rw [hout k, extractChunk_apply]
      by_cases hk : w ≤ k ∧ k < w + c
      · rw [if_neg (by omega), if_pos hk, if_pos (by omega)]
        have hget := response_getD hdrs data pre w c (chunkSizes addr nwords fuel (w + c))
          (show k - w < c by omega)
        rw [hget, show w + (k - w) = k by omega]
      · rw [if_neg hk]
        exact if_congr (by omega) rfl rfl
    · rw [extractLoop, if_neg hlt]
      refine ⟨out, rfl, fun k => ?_⟩
      rw [if_neg (by omega)]

end Response

/-! ## Requests and responses -/

/-- What is to hold of a request that was built: its accesses cut the block, in order; the length of
the response is counted; and the extractor gives the words of the block back from a response with
any headers. -/
structure ReadFramed (ret addr nwords : ℕ) (words : List ℕ) (respWords : Option ℕ) (cs : List ℕ) : Prop where
  frames : Frames addr nwords 0 cs
  accesses : readRequests words = some ((readBlocks addr 0 cs).map fun b => (b.1, b.2, 1, ret % 32))
  resp : respWords = some (cs.map (1 + ·)).sum
  extract : ∀ hdrs data out : ℕ → ℕ, ∃ out',
    rtCtrlReadExtract addr nwords (fun i => (response hdrs data 0 cs).getD i 0) out = some out' ∧
      ∀ k, out' k = if k < nwords then data k else out k

/-- **Reads are framed as they are extracted.** The request is always answered; a length other than
0 is that of a request for the whole block. -/
theorem read_framing (cap req ret : ℕ) {addr nwords : ℕ} (haddr : addr % 4 = 0)
    (hn : nwords < 2 ^ 28) (out : ℕ → ℕ) :
    ∃ len p respWords, runtimeCtrlPktizeRead cap req ret addr nwords out = some (len, p, respWords) ∧
      (len ≠ 0 → ∃ cs, ReadFramed ret addr nwords ((range len).map p) respWords cs) := by
  obtain ⟨r, hrun, hspec⟩ := @readLoop_spec cap req ret addr nwords haddr hn (nwords + 1) 0
    ⟨0, out⟩ 0 (Nat.zero_le _)
    (by omega) le_rfl le_rfl
  unfold runtimeCtrlPktizeRead
  rw [hrun]
  cases r with
  | error p => exact ⟨0, p, none, rfl, fun hne => absurd rfl hne⟩
  | ok r =>
    obtain ⟨o, resp⟩ := r
    obtain ⟨hwords, hresp⟩ := hspec o resp rfl
    have hframes := frames_chunkSizes haddr (show nwords < 2 ^ 32 by omega) (nwords + 1)
      (Nat.zero_le nwords) (by omega)
    refine ⟨o.idx, o.p, some resp, rfl, fun _ => ⟨chunkSizes addr nwords (nwords + 1) 0, hframes, ?_, ?_, ?_⟩⟩
    · change readRequests o.words = _
      rw [hwords]
      exact readRequests_words hframes
    · rw [hresp, zero_add]
    · intro hdrs data out'
      obtain ⟨res, hext, hres⟩ := extractLoop_spec haddr hn hdrs data (nwords + 1) 0 [] out'
        (Nat.zero_le _) (by omega)
        (Nat.zero_le _)
      refine ⟨res, hext, fun k => ?_⟩
      rw [hres k]
      exact if_congr (by omega) rfl rfl

/-- Six words from the third word of a block on: two, and four in the next block. -/
theorem read_framing_six :
    (∃ p, runtimeCtrlPktizeRead 4 3 5 0x1008 6 (fun _ => 0) = some (4, p, some 8)) ∧
      ∃ len p respWords, runtimeCtrlPktizeRead 4 3 5 0x1008 6 (fun _ => 0) = some (len, p, respWords) ∧
        (len ≠ 0 → ∃ cs, ReadFramed 5 0x1008 6 ((range len).map p) respWords cs) :=
  ⟨⟨_, rfl⟩, read_framing 4 3 5 (by decide) (by decide) _⟩

end AieHlc.Packet
