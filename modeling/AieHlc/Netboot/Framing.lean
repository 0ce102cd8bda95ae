import AieHlc.Netboot.Supervisor
import Mathlib.Data.List.GetD

/-!
# Receiving a request

A request arrives as chains of packets that are cut anywhere. `on_recv` keeps the header, copies
what belongs to the payload into the staging area and notes when the request is complete.

* `arriving`: the staging area while packets arrive; a copy may not pass its end.
* `payload`: the bytes of a stream that are payload, at most `elf_size` of them.
* `Framed`: header, count and staging area are those of the stream.
* `recv_framing`: after any chains they are, so they are what one packet with all the bytes leaves.
-/

namespace AieHlc.Netboot

open List AieHlc.Prog AieHlc.Prog.Code

abbrev Area := ℕ → UInt8

/-- `memcpy` into the staging area. -/
def copyAt (μ : Area) (off : ℕ) (bytes : List UInt8) : Area := fun x =>
  if off ≤ x ∧ x < off + bytes.length then bytes.getD (x - off) 0 else μ x

def arriving : Surroundings Area Req Ans where
  other _ _ := False
  act q μ _ μ' := μ' = match q with
    | .stage off bytes => copyAt μ off bytes
    | _ => μ
  allowed q _ _ := match q with
    | .stage off bytes => off + bytes.length ≤ NB_STAGING_SIZE
    | _ => True

/-- What `on_recv` takes for payload of the bytes it has received. -/
def payload (bs : List UInt8) : List UInt8 :=
  let req := NetbootReq.read (bs.take sizeofReq)
  if sizeofReq ≤ bs.length ∧ req.cmd = NETBOOT_CMD_LOAD_RUN then (bs.drop sizeofReq).take req.elfSize else []

/-- The connection has received the bytes `bs`, and they are in the staging area that was `μ₀`. -/
structure Framed (bs : List UInt8) (μ₀ : Area) (c : Conn) (μ : Area) : Prop where
  hdr : c.hdr = bs.take sizeofReq
  got : c.payloadGot = (payload bs).length
  staged : μ = if c.req.elfSize ≤ NB_STAGING_SIZE then copyAt μ₀ 0 (payload bs) else μ₀

section Bytes

variable {bs r a b : List UInt8} {μ μ₀ : Area} {c : Conn}

theorem copyAt_nil (μ : Area) (off : ℕ) : copyAt μ off [] = μ := by
  funext x
  have hout : ¬(off ≤ x ∧ x < off + ([] : List UInt8).length) := by simp
  rw [copyAt, if_neg hout]

theorem copyAt_append : copyAt (copyAt μ 0 a) a.length b = copyAt μ 0 (a ++ b) := by
  funext x
  simp only [copyAt, length_append, zero_add, Nat.zero_le, true_and, Nat.sub_zero]
  by_cases ha : x < a.length
  · rw [if_neg (by omega), if_pos ha, if_pos (by omega), getD_append _ _ _ _ ha]
  · by_cases hb : x < a.length + b.length
    · rw [if_pos ⟨by omega, hb⟩, if_pos hb, getD_append_right _ _ _ _ (by omega)]
    · rw [if_neg (by omega), if_neg ha, if_neg hb]

theorem payload_short (h : bs.length ≤ sizeofReq) : payload bs = [] := by
  simp [payload, drop_eq_nil_of_le h]

/-- A header that is whole says how much of what follows is payload. -/
theorem payload_append (h : sizeofReq ≤ bs.length) : payload (bs ++ r) = payload bs ++
    if (NetbootReq.read (bs.take sizeofReq)).cmd = NETBOOT_CMD_LOAD_RUN
    then r.take ((NetbootReq.read (bs.take sizeofReq)).elfSize - (payload bs).length) else [] := by
  have htake : (bs ++ r).take sizeofReq = bs.take sizeofReq := take_append_of_le_length h
  have hlen : sizeofReq ≤ (bs ++ r).length := by
    rw [length_append]
    omega
  simp only [payload, htake, h, hlen, true_and]
  split
  · rw [drop_append_of_le_length h, take_append, length_take]
    congr 2
    omega
  · rfl

/-- The bytes of the header change nothing but the header. -/
theorem Framed.header (h : Framed bs μ₀ c μ) (hle : (bs ++ r).length ≤ sizeofReq ∨ r = []) :
    Framed (bs ++ r) μ₀ { c with hdr := c.hdr ++ r } μ := by
  rcases hle with hle | rfl
  · have hshort : bs.length ≤ sizeofReq := by
      rw [length_append] at hle
      omega
    have hnone := payload_short hle
    have hsame := h.staged
    rw [payload_short hshort, copyAt_nil, ite_self] at hsame
    refine ⟨?_, ?_, ?_⟩
    · rw [h.hdr, take_of_length_le hshort, take_of_length_le hle]
    · rw [h.got, hnone, payload_short hshort]
    · rw [hnone, copyAt_nil, ite_self, hsame]
  · rw [append_nil, append_nil]
    exact h

/-- More payload goes on where the staged part ends. -/
theorem Framed.more (h : Framed bs μ₀ c μ) (hle : sizeofReq ≤ bs.length)
    (hr : payload (bs ++ r) = payload bs ++ a) :
    Framed (bs ++ r) μ₀ { c with payloadGot := c.payloadGot + a.length }
      (if c.req.elfSize ≤ NB_STAGING_SIZE then copyAt μ c.payloadGot a else μ) := by
  refine ⟨?_, ?_, ?_⟩
  · rw [h.hdr, take_append_of_le_length hle]
  · rw [h.got, hr, length_append]
  · have hreq : ({ c with payloadGot := c.payloadGot + a.length } : Conn).req = c.req := rfl
    rw [hreq, hr]
    by_cases hfit : c.req.elfSize ≤ NB_STAGING_SIZE
    · rw [if_pos hfit, if_pos hfit, h.got, h.staged, if_pos hfit, copyAt_append]
    · rw [if_neg hfit, if_neg hfit, h.staged, if_neg hfit]

end Bytes

/-! ## The callbacks -/

section Callbacks

variable {bs : List UInt8} {μ μ₀ : Area} {s : Sup} {b : Bool}

theorem arriving_ask {q : Req} {R : Ans q → Sup → Area → Prop} (hok : ∀ a, arriving.allowed q μ a)
    (h : ∀ a μ', arriving.act q μ a μ' → R a s μ') : Code.Meets arriving (askFor q) R s μ := by
  intro μ' hstar a μ'' hact
  obtain rfl : μ = μ' := by
    induction hstar with
    | refl => rfl
    | tail _ hstep _ => exact hstep.elim
  exact ⟨hok a, h a μ'' hact⟩

/-- The bytes `bs` have been received; the ready flag is `b`. -/
def Got (bs : List UInt8) (μ₀ : Area) (b : Bool) (s : Sup) (μ : Area) : Prop :=
  Framed bs μ₀ s.conn μ ∧ s.conn.ready = b

theorem recvPayload_got (src : List UInt8) (h : Got bs μ₀ b s μ) (hwhole : src = [] ∨ sizeofReq ≤ bs.length) :
    Code.Meets arriving (recvPayload src) (fun _ => Got (bs ++ src) μ₀ b) s μ := by
  obtain ⟨hF, rfl⟩ := h
  have hreq : s.conn.req = NetbootReq.read (bs.take sizeofReq) := by rw [Conn.req, hF.hdr]
  apply meets_get
  apply meets_ite
  · rintro ⟨hne, -, hcmd⟩
    have hle := hwhole.resolve_left hne
    have hlen : (src.take (s.conn.takes src)).length = s.conn.takes src := length_take_of_le (min_le_left _ _)
    have hmore := hF.more hle (r := src) (a := src.take (s.conn.takes src)) (by
      rw [payload_append hle, ← hreq, if_pos hcmd, Conn.takes, ← hF.got, take_eq_take_min, min_comm])
    rw [hlen] at hmore
    apply meets_bind
    apply meets_ite
    · intro hfit
      have hfit' := of_decide_eq_true hfit
      rw [if_pos hfit'] at hmore
      apply arriving_ask
      · -- the copy ends at `elf_size` at the latest
        intro _
        have hgot : s.conn.payloadGot ≤ s.conn.req.elfSize := by
          rw [hF.got, hreq, payload]
          split <;> simp
        show s.conn.payloadGot + (src.take (s.conn.takes src)).length ≤ NB_STAGING_SIZE
        rw [hlen, Conn.takes]
        omega
      · rintro _ μ' rfl
        exact meets_modify ⟨hmore, rfl⟩
    · intro hover
      rw [if_neg fun hfit => hover (decide_eq_true hfit)] at hmore
      exact meets_pure (meets_modify ⟨hmore, rfl⟩)
  · intro hno
    refine meets_pure ⟨?_, rfl⟩
    by_cases hne : src = []
    · rw [hne, append_nil]
      exact hF
    · have hle := hwhole.resolve_left hne
      have hhdr : s.conn.hdr.length = sizeofReq := by rw [hF.hdr, length_take_of_le hle]
      have hcmd : ¬s.conn.req.cmd = NETBOOT_CMD_LOAD_RUN := fun hcmd => hno ⟨hne, hhdr, hcmd⟩
      have hsame := hF.more hle (r := src) (a := []) (by rw [payload_append hle, ← hreq, if_neg hcmd])
      rw [copyAt_nil, ite_self] at hsame
      exact hsame

theorem recvPbuf_got (src : List UInt8) (h : Got bs μ₀ b s μ) :
    Code.Meets arriving (recvPbuf src) (fun _ => Got (bs ++ src) μ₀ b) s μ := by
  obtain ⟨hF, hb⟩ := h
  apply meets_get
  apply meets_bind
  apply meets_set
  have hhdr : s.conn.hdr.length = min sizeofReq bs.length := by rw [hF.hdr, length_take]
  have hhead := hF.header (r := src.take (sizeofReq - s.conn.hdr.length)) (by
    rw [length_append, length_take]
    by_cases hfull : sizeofReq ≤ bs.length
    · exact Or.inr (by rw [hhdr, min_eq_left hfull, Nat.sub_self, take_zero])
    · exact Or.inl (by omega))
  have hsrc := take_append_drop (sizeofReq - s.conn.hdr.length) src
  have hrest := recvPayload_got (s := { s with conn := { s.conn with
    hdr := s.conn.hdr ++ src.take (sizeofReq - s.conn.hdr.length) } })
      (src.drop (sizeofReq - s.conn.hdr.length))
    ⟨hhead, hb⟩ ?_
  · rwa [append_assoc, hsrc] at hrest
  · -- what is left of the packet follows a whole header
    by_cases hlen : src.length ≤ sizeofReq - s.conn.hdr.length
    · exact Or.inl (drop_eq_nil_of_le hlen)
    · right
      rw [length_append, length_take]
      omega

theorem complete_mono {c c' : Conn} {μ' : Area} {r : List UInt8} (h : Framed bs μ₀ c μ)
    (h' : Framed (bs ++ r) μ₀ c' μ') (hc : c.complete = true) : c'.complete = true := by
  simp only [Conn.complete, Bool.and_eq_true, Bool.or_eq_true, decide_eq_true_eq] at hc ⊢
  have hle : sizeofReq ≤ bs.length := by
    rw [h.hdr, length_take] at hc
    omega
  have hhdr : c'.hdr = c.hdr := by rw [h'.hdr, h.hdr, take_append_of_le_length hle]
  have hgot : c.payloadGot ≤ c'.payloadGot := by
    rw [h.got, h'.got, payload_append hle, length_append]
    omega
  rw [Conn.req, hhdr]
  exact hc.imp_right (Or.imp_left (Or.imp_right fun hall => le_trans hall hgot))

/-- All bytes of `bs` have been received, and the flag says whether they are a request. -/
def Received (bs : List UInt8) (μ₀ : Area) (s : Sup) (μ : Area) : Prop := Got bs μ₀ s.conn.complete s μ

theorem onRecv_received (chain : List (List UInt8)) (h : Received bs μ₀ s μ) :
    Code.Meets arriving (onRecv chain) (fun _ => Received (bs ++ chain.flatten) μ₀) s μ := by
  obtain ⟨hF, hready⟩ := h
  apply meets_get
  apply meets_bind
  have hfirst : Code.Meets arriving (whenDo (s.conn.tFirstMs = 0) (do
      let t ← askFor .now
      modify fun s => { s with conn := { s.conn with tFirstMs := t } }))
      (fun _ => Got bs μ₀ s.conn.complete) s μ := by
    apply meets_ite
    · intro _
      apply meets_bind
      apply arriving_ask
      · exact fun _ => trivial
      · rintro t μ' rfl
        exact meets_modify ⟨⟨hF.hdr, hF.got, hF.staged⟩, hready⟩
    · exact fun _ => meets_pure ⟨hF, hready⟩
  apply meets_mono hfirst
  intro _ s₁ μ₁ h₁
  apply meets_bind
  have hchain := meets_forM (I := fun done => Got (bs ++ done.flatten) μ₀ s.conn.complete) (f := recvPbuf)
    (E := arriving) (fun done x s μ h => by simpa [append_assoc] using recvPbuf_got x h) chain
    [] (by simpa using h₁)
  apply meets_mono hchain
  rintro _ s₂ μ₂ ⟨hF₂, hready₂⟩
  apply meets_modify
  refine ⟨⟨hF₂.hdr, hF₂.got, hF₂.staged⟩, ?_⟩
  show (s₂.conn.ready || s₂.conn.complete) = s₂.conn.complete
  rw [hready₂]
  cases hc : s.conn.complete with
  | false => rfl
  | true => rw [complete_mono hF hF₂ hc, Bool.or_self]

theorem received_fresh (hfresh : s.conn = {}) (μ : Area) : Received [] μ s μ := by
  rw [Received, Got, hfresh]
  refine ⟨⟨rfl, rfl, ?_⟩, by simp [Conn.complete, sizeofReq]⟩
  rw [payload_short (Nat.zero_le _), copyAt_nil, ite_self]

end Callbacks

/-- **Framing does not depend on how the stream is cut.** From a fresh connection, the callbacks of
any chains copy only within the staging area and keep the header, the payload and the ready flag of
the stream; one packet with all the bytes leaves the same. -/
theorem recv_framing (s : Sup) (hfresh : s.conn = {}) (μ : Area) (chains : List (List (List UInt8))) :
    Code.Meets arriving (chains.forM onRecv) (fun _ s' μ' =>
      Received chains.flatten.flatten μ s' μ' ∧
      Code.Meets arriving (onRecv [chains.flatten.flatten]) (fun _ s₁ μ₁ =>
        s₁.conn.hdr = s'.conn.hdr ∧ s₁.conn.payloadGot = s'.conn.payloadGot ∧ s₁.conn.ready = s'.conn.ready ∧
          μ₁ = μ') s μ) s μ := by
  have hstart := received_fresh hfresh μ
  have hrun := meets_forM (I := fun done => Received done.flatten.flatten μ) (f := onRecv) (E := arriving)
    (fun done x s μ h => by simpa using onRecv_received x h) chains [] hstart
  rw [nil_append] at hrun
  apply meets_mono hrun
  intro _ s' μ' h
  refine ⟨h, meets_mono (onRecv_received [chains.flatten.flatten] hstart) ?_⟩
  intro _ s₁ μ₁ h₁
  rw [flatten_singleton, nil_append] at h₁
  have hhdr := h₁.1.hdr.trans h.1.hdr.symm
  have hgot := h₁.1.got.trans h.1.got.symm
  have hreq : s₁.conn.req = s'.conn.req := by rw [Conn.req, Conn.req, hhdr]
  refine ⟨hhdr, hgot, ?_, ?_⟩
  · rw [h₁.2, h.2, Conn.complete, Conn.complete, hhdr, hgot, hreq]
  · rw [h₁.1.staged, h.1.staged, hreq]

/-- A LOAD_RUN request of two bytes, and one byte more. -/
def loadBytes : List UInt8 := requestBytes NETBOOT_CMD_LOAD_RUN 2 noDigest ++ [7, 8, 9]

/-- The request cut in its header, and in its payload. -/
def loadCut : List (List (List UInt8)) :=
  [[loadBytes.take 5, (loadBytes.drop 5).take 60], [loadBytes.drop 65]]

theorem recv_framing_bytes : loadCut.flatten.flatten = loadBytes ∧ payload loadBytes = [7, 8] ∧
    ({ ready := true } : Sup).conn = {} ∧
    Code.Meets arriving (loadCut.forM onRecv) (fun _ s' μ' =>
      Received loadBytes (fun _ => 0) s' μ' ∧
      Code.Meets arriving (onRecv [loadBytes]) (fun _ s₁ μ₁ =>
        s₁.conn.hdr = s'.conn.hdr ∧ s₁.conn.payloadGot = s'.conn.payloadGot ∧ s₁.conn.ready = s'.conn.ready ∧
          μ₁ = μ') { ready := true } (fun _ => 0)) { ready := true } (fun _ => 0) := by
  have hcut : loadCut.flatten.flatten = loadBytes := by decide +kernel
  have hframing := recv_framing { ready := true } rfl (fun _ => 0) loadCut
  rw [hcut] at hframing
  exact ⟨hcut, by decide +kernel, rfl, hframing⟩

end AieHlc.Netboot
