import AieHlc.Packet.PktizeRoundTrip
import AieHlc.Packet.Stream

/-!
# Transactions as control packets

Model of `rt_ctrl_txn_translate` (`aie_runtime.c`): a recorded transaction of register
writes becomes write packets of one stream id. Only the last operation is asked to
carry the acknowledgement.

* `TxnOp`, `Txn`: a serialized transaction, operation sizes well formed.
* `rtCtrlTxnTranslate`: the translation.
* `Translatable`: only writes, every tile passes the check, the packets fit.
* `txnLoop_ok`, `txnLoop_error`: the loop in both cases.
* `translates_iff`: **the translation is right** unless the acknowledgement falls on an
  empty block write.
-/

namespace AieHlc.Packet

open Option List AieHlc.Word

/-- What the translation reads of the device, and the size of a block write's header. -/
structure TxnDev where
  rowShift : ℕ
  colShift : ℕ
  isCore : ℕ → ℕ → Bool
  blockHdr : ℕ

/-- One operation of a serialized transaction; the payload of a block write is the memory
behind its header. -/
inductive TxnOp where
  | write32 (regOff value : ℕ)
  | blockWrite32 (regOff size : ℕ) (payload : ℕ → ℕ)
  | other (op : ℕ)

/-- A block write has room for its header and for whole words, in a 32-bit size. -/
def TxnOp.WellFormed (d : TxnDev) : TxnOp → Prop
  | .blockWrite32 _ size _ => d.blockHdr ≤ size ∧ (size - d.blockHdr) % 4 = 0 ∧ size < 2 ^ 32
  | _ => True

/-- A serialized transaction. -/
structure Txn (d : TxnDev) where
  ops : List TxnOp
  count : ops.length < 2 ^ 32
  sizes : ∀ op ∈ ops, op.WellFormed d

/-- A mask of `k` bits of a 32-bit word. -/
def spanMask (k : ℕ) : ℕ := if k ≥ 32 then 0xFFFFFFFF else 2 ^ k - 1

/-- The words of a write operation and the tile they are for. -/
structure TxnWrite where
  col : ℕ
  row : ℕ
  tileAddr : ℕ
  nwords : ℕ
  payload : ℕ → ℕ

section Model

variable (d : TxnDev)

/-- `rt_ctrl_txn_decode_regoff`, with the words of the operation. -/
def rtCtrlTxnDecodeRegoff (regOff nwords : ℕ) (payload : ℕ → ℕ) : TxnWrite where
  col := (regOff >>> d.colShift) % 256
  row := ((regOff >>> d.rowShift) &&& spanMask (u32sub d.colShift d.rowShift)) % 256
  tileAddr := regOff &&& spanMask d.rowShift
  nwords := nwords
  payload := payload

/-- The write of an operation; none for an operation that is no write. -/
def TxnOp.write? : TxnOp → Option TxnWrite
  | .write32 regOff value => some (rtCtrlTxnDecodeRegoff d regOff 1 fun _ => value)
  | .blockWrite32 regOff size payload =>
    some (rtCtrlTxnDecodeRegoff d regOff ((size - d.blockHdr) / 4) payload)
  | .other _ => none

/-- `rt_ctrl_txn_check_tile`: a broadcast reaches core tiles only, a multicast one row. -/
def rtCtrlTxnCheckTile (col row : ℕ) (targetRow : ℤ) : Bool :=
  if targetRow < 0 then d.isCore col row else (row : ℤ) = targetRow

variable (sid : ℕ) (targetRow : ℤ) (cap : ℕ) (lastwriteack : Bool) (ret : ℕ)

/-- `rt_ctrl_txn_emit_write`: the words emitted and the buffer. -/
def rtCtrlTxnEmitWrite (w : TxnWrite) (ack : Bool) (o : Out) : ℕ × (ℕ → ℕ) :=
  if o.idx > cap then (0, o.p)
  else pktizeAt runtimePktParity cap sid w.tileAddr (some w.payload) w.nwords ack ret o

/-- The loop over the operations from number `i` on: `error` for the return with -1. -/
def txnLoop (numOps : ℕ) : ℕ → List TxnOp → Out → Except (ℕ → ℕ) Out
  | _, [], o => .ok o
  | i, op :: ops, o =>
    match op.write? d with
    | none => .error o.p
    | some w =>
      if rtCtrlTxnCheckTile d w.col w.row targetRow then
        -- only the final operation carries the acknowledgement
        let e := rtCtrlTxnEmitWrite sid cap ret w (lastwriteack && i == u32sub numOps 1) o
        if e.1 = 0 ∧ w.nwords > 0 then .error e.2
        else txnLoop numOps (i + 1) ops ⟨u32 (o.idx + e.1), e.2⟩
      else .error o.p

/-- The return code, `*nwords_out` and the output buffer. -/
structure TxnResult where
  rc : ℤ
  nwordsOut : ℕ
  out : ℕ → ℕ

/-- `rt_ctrl_txn_translate`. -/
def rtCtrlTxnTranslate (txn : Txn d) (out : ℕ → ℕ) (nwordsOut : ℕ) : TxnResult :=
  match txnLoop d sid targetRow cap lastwriteack ret txn.ops.length 0 txn.ops ⟨0, out⟩ with
  | .error p => ⟨-1, nwordsOut, p⟩
  | .ok o => ⟨0, o.idx, o.p⟩

/-! ### What a transaction means -/

def TxnOp.nwords (op : TxnOp) : ℕ := (op.write? d).elim 0 TxnWrite.nwords

def TxnOp.writes (op : TxnOp) : List (ℕ × ℕ) :=
  (op.write? d).elim [] fun w => (range w.nwords).map fun i => ((w.tileAddr + 4 * i) % 2 ^ 20, w.payload i)

def opAccs (ack : Bool) (op : TxnOp) : List Access :=
  (op.write? d).elim [] fun w => pktAccs (cpeStreamHdr sid) w.tileAddr (some w.payload) w.nwords ack ret

/-- The packets of a list of operations, the last of which may carry the acknowledgement. -/
def txnAccs : List TxnOp → List Access
  | [] => []
  | op :: ops => opAccs d sid ret (lastwriteack && ops.isEmpty) op ++ txnAccs ops

/-- The operation writes words of a tile that the cast reaches. -/
def TxnOp.Castable (op : TxnOp) : Prop :=
  ∃ w, op.write? d = some w ∧ rtCtrlTxnCheckTile d w.col w.row targetRow

/-- Every operation is castable and the packets fit the capacity. -/
def Translatable (ops : List TxnOp) : Prop :=
  (∀ op ∈ ops, op.Castable d targetRow) ∧
    ((txnAccs d sid lastwriteack ret ops).flatMap Access.words).length ≤ cap

/-- The contract of the translation. -/
structure Translates (txn : Txn d) (out : ℕ → ℕ) (nwordsOut : ℕ) (r : TxnResult) : Prop where
  accepts_iff : r.rc = 0 ↔ Translatable d sid targetRow cap lastwriteack ret txn.ops
  decodes : r.rc = 0 → ∃ accs, walk ((range r.nwordsOut).map r.out) = some accs ∧
    (∀ a ∈ accs, (runtimeCtrlParsePktHdr a.stream).ok ∧ (runtimeCtrlParsePktHdr a.stream).id = sid % 32 ∧
      (runtimeCtrlParseCtrlHdr a.ctrl).ok) ∧
    accs.flatMap Access.writes = txn.ops.flatMap (TxnOp.writes d) ∧
    (lastwriteack → txn.ops.flatMap (TxnOp.writes d) ≠ [] → OneAck accs)
  unchanged : r.rc ≠ 0 → r.nwordsOut = nwordsOut

end Model

section Loop

variable {d : TxnDev} {sid : ℕ} {targetRow : ℤ} {cap : ℕ} {lastwriteack : Bool} {ret : ℕ} {numOps : ℕ}

theorem words_out_length (o : Out) : o.words.length = o.idx := by rw [Out.words, length_map, length_range]

theorem nwords_lt {op : TxnOp} {w : TxnWrite} (hwf : op.WellFormed d) (hw : op.write? d = some w) :
    w.nwords ≤ 2 ^ 30 := by
  cases op with
  | write32 regOff value =>
    obtain rfl := some.inj hw
    show 1 ≤ 2 ^ 30
    decide
  | blockWrite32 regOff size payload =>
    obtain rfl := some.inj hw
    have hsize := hwf.2.2
    show (size - d.blockHdr) / 4 ≤ 2 ^ 30
    omega
  | other op => exact nomatch hw

theorem opAccs_some {op : TxnOp} {w : TxnWrite} (hw : op.write? d = some w) (ack : Bool) :
    opAccs d sid ret ack op = pktAccs (cpeStreamHdr sid) w.tileAddr (some w.payload) w.nwords ack ret := by
  rw [opAccs, hw]
  rfl

theorem emitWrite_eq {w : TxnWrite} {ack : Bool} {o : Out} (hle : o.idx ≤ cap) :
    rtCtrlTxnEmitWrite sid cap ret w ack o =
    pktizeAt cpeParity cap sid w.tileAddr (some w.payload) w.nwords ack ret o := by
  rw [rtCtrlTxnEmitWrite, if_neg (not_lt.2 hle), funext runtimePktParity_eq]

theorem ack_flag {i : ℕ} {ops : List TxnOp} (hi : i + (ops.length + 1) = numOps) (hlt : numOps < 2 ^ 32) :
    (i == u32sub numOps 1) = ops.isEmpty := by
  rw [u32sub_eq (by omega) hlt]
  cases ops with
  | nil =>
    rw [length_nil] at hi
    rw [isEmpty_nil, beq_iff_eq]
    omega
  | cons op ops =>
    rw [length_cons] at hi
    rw [isEmpty_cons, beq_eq_false_iff_ne]
    omega

theorem txnLoop_step {i : ℕ} {op : TxnOp} {ops : List TxnOp} {o : Out} (hcap : cap < 2 ^ 32)
    (hi : i + (ops.length + 1) = numOps) (hlt : numOps < 2 ^ 32) (hwf : op.WellFormed d)
    (hcast : op.Castable d targetRow)
    (hroom : o.idx + ((opAccs d sid ret (lastwriteack && ops.isEmpty) op).flatMap
      Access.words).length ≤ cap) :
    ∃ o' : Out, o'.words = o.words ++ (opAccs d sid ret (lastwriteack && ops.isEmpty) op).flatMap
      Access.words ∧
      txnLoop d sid targetRow cap lastwriteack ret numOps i (op :: ops) o =
        txnLoop d sid targetRow cap lastwriteack ret numOps (i + 1) ops o' := by
  obtain ⟨w, hw, hcheck⟩ := hcast
  rw [opAccs_some hw, pktAccs_length] at hroom
  have hfit := @pktLen_lt w.nwords (lastwriteack && ops.isEmpty) (nwords_lt hwf hw)
  obtain ⟨p, hrun, hwords⟩ := @pktizeAt_fits cap sid w.tileAddr (some w.payload) w.nwords _ ret o hfit hroom
  refine ⟨⟨o.idx + pktLen w.nwords (lastwriteack && ops.isEmpty), p⟩, ?_, ?_⟩
  · rw [opAccs_some hw]
    exact hwords
  · have hpass : ¬(pktLen w.nwords (lastwriteack && ops.isEmpty) = 0 ∧ w.nwords > 0) := by
      rw [pktLen_eq_zero]
      omega
    rw [txnLoop, hw]
    dsimp only
    rw [if_pos hcheck, ack_flag hi hlt, emitWrite_eq (by omega), hrun, if_neg hpass, u32_eq (by omega)]

theorem txnLoop_stop {i : ℕ} {op : TxnOp} {ops : List TxnOp} {o : Out}
    (hi : i + (ops.length + 1) = numOps) (hlt : numOps < 2 ^ 32) (hwf : op.WellFormed d) (hle : o.idx ≤ cap)
    (hstop : ¬(op.Castable d targetRow ∧
      o.idx + ((opAccs d sid ret (lastwriteack && ops.isEmpty) op).flatMap Access.words).length ≤ cap)) :
    ∃ p, txnLoop d sid targetRow cap lastwriteack ret numOps i (op :: ops) o = .error p := by
  rw [txnLoop]
  cases hw : op.write? d with
  | none => exact ⟨o.p, rfl⟩
  | some w =>
    dsimp only
    by_cases hcheck : rtCtrlTxnCheckTile d w.col w.row targetRow
    · rw [if_pos hcheck, ack_flag hi hlt, emitWrite_eq hle]
      have hfull : cap < o.idx + pktLen w.nwords (lastwriteack && ops.isEmpty) := by
        rw [← @pktAccs_length w.tileAddr (some w.payload) _ _ ret (cpeStreamHdr sid), ← opAccs_some hw]
        exact Nat.lt_of_not_le fun h => hstop ⟨⟨w, hw, hcheck⟩, h⟩
      have hpos : w.nwords > 0 := by
        rcases Nat.eq_zero_or_pos w.nwords with hzero | hpos
        · rw [pktLen_eq_zero.2 hzero] at hfull
          omega
        · exact hpos
      rw [if_pos ⟨pktizeAt_full (pktLen_lt (nwords_lt hwf hw)) hle hfull, hpos⟩]
      exact ⟨_, rfl⟩
    · rw [if_neg hcheck]
      exact ⟨o.p, rfl⟩

/-- **The loop on operations that are translatable.** -/
theorem txnLoop_ok (hcap : cap < 2 ^ 32) (hlt : numOps < 2 ^ 32) : ∀ (ops : List TxnOp) (i : ℕ) (o : Out),
    i + ops.length = numOps → (∀ op ∈ ops, op.WellFormed d) → (∀ op ∈ ops, op.Castable d targetRow) →
    o.idx + ((txnAccs d sid lastwriteack ret ops).flatMap Access.words).length ≤ cap →
    ∃ o' : Out, txnLoop d sid targetRow cap lastwriteack ret numOps i ops o = .ok o' ∧
      o'.words = o.words ++ (txnAccs d sid lastwriteack ret ops).flatMap Access.words := by
  intro ops
  induction ops with
  | nil => exact fun i o _ _ _ _ => ⟨o, rfl, (append_nil _).symm⟩
  | cons op ops ih =>
    intro i o hi hwf hcast hroom
    rw [txnAccs, flatMap_append, length_append] at hroom
    obtain ⟨o₁, hwords₁, hstep⟩ := @txnLoop_step d sid targetRow cap lastwriteack ret numOps i
      op ops o hcap hi hlt
      (hwf op mem_cons_self) (hcast op mem_cons_self) (by omega)
    have hidx := congrArg length hwords₁
    rw [length_append, words_out_length, words_out_length] at hidx
    obtain ⟨o', hrun, hwords⟩ := ih (i + 1) o₁ (by rw [length_cons] at hi; omega)
      (fun q hq => hwf q (mem_cons_of_mem _ hq)) (fun q hq => hcast q (mem_cons_of_mem _ hq)) (by omega)
    refine ⟨o', hstep.trans hrun, ?_⟩
    rw [hwords, hwords₁, txnAccs, flatMap_append, append_assoc]

/-- **The loop on operations that are not.** -/
theorem txnLoop_error (hcap : cap < 2 ^ 32) (hlt : numOps < 2 ^ 32) : ∀ (ops : List TxnOp) (i : ℕ) (o : Out),
    i + ops.length = numOps → (∀ op ∈ ops, op.WellFormed d) → o.idx ≤ cap →
    ¬((∀ op ∈ ops, op.Castable d targetRow) ∧
      o.idx + ((txnAccs d sid lastwriteack ret ops).flatMap Access.words).length ≤ cap) →
    ∃ p, txnLoop d sid targetRow cap lastwriteack ret numOps i ops o = .error p := by
  intro ops
  induction ops with
  | nil => exact fun i o _ _ hle hnot => absurd ⟨nofun, hle⟩ hnot
  | cons op ops ih =>
    intro i o hi hwf hle hnot
    have hop := hwf op mem_cons_self
    by_cases hpass : op.Castable d targetRow ∧
        o.idx + ((opAccs d sid ret (lastwriteack && ops.isEmpty) op).flatMap Access.words).length ≤ cap
    · obtain ⟨o₁, hwords₁, hstep⟩ := @txnLoop_step d sid targetRow cap lastwriteack ret numOps
        i op ops o hcap hi hlt
        hop hpass.1 hpass.2
      have hidx := congrArg length hwords₁
      rw [length_append, words_out_length, words_out_length] at hidx
      rw [hstep]
      refine ih (i + 1) o₁ (by rw [length_cons] at hi; omega) (fun q hq => hwf q (mem_cons_of_mem _ hq))
        (by omega) fun hrest => hnot ⟨?_, ?_⟩
      · exact forall_mem_cons.2 ⟨hpass.1, hrest.1⟩
      · have := hrest.2
        rw [txnAccs, flatMap_append, length_append]
        omega
    · exact txnLoop_stop hi hlt hop hle hpass

end Loop

/-! ### The packets -/

section Packets

variable {d : TxnDev} {sid : ℕ} {lastwriteack : Bool} {ret : ℕ}

theorem opAccs_decoded {op : TxnOp} {w : TxnWrite} (hw : op.write? d = some w) (ack : Bool) :
    Decoded sid w.tileAddr (some w.payload) w.nwords ack ret (opAccs d sid ret ack op) := by
  rw [opAccs_some hw]
  exact pktAccs_decoded

theorem opAccs_none {op : TxnOp} (hw : op.write? d = none) (ack : Bool) : opAccs d sid ret ack op = [] := by
  rw [opAccs, hw]
  rfl

theorem opAccs_writes (ack : Bool) (op : TxnOp) :
    (opAccs d sid ret ack op).flatMap Access.writes = op.writes d := by
  cases hw : op.write? d with
  | none =>
    rw [opAccs_none hw, TxnOp.writes, hw]
    rfl
  | some w =>
    rw [(opAccs_decoded hw ack).writes, TxnOp.writes, hw]
    rfl

theorem opAccs_headers (ack : Bool) (op : TxnOp) : ∀ a ∈ opAccs d sid ret ack op, a.WellFormed ∧
    (runtimeCtrlParsePktHdr a.stream).ok ∧ (runtimeCtrlParsePktHdr a.stream).id = sid % 32 ∧
      (runtimeCtrlParseCtrlHdr a.ctrl).ok := by
  intro a ha
  cases hw : op.write? d with
  | none =>
    rw [opAccs_none hw] at ha
    exact absurd ha not_mem_nil
  | some w =>
    have hdec := @opAccs_decoded d sid ret op w hw ack
    have hstream := hdec.stream a ha
    refine ⟨?_, hstream.1, hstream.2, hdec.ctrl a ha⟩
    rw [opAccs_some hw] at ha
    exact pktAccs_wellFormed a ha

theorem opAccs_plain (op : TxnOp) : ∀ a ∈ opAccs d sid ret false op, hdrOp a.ctrl = 0 := by
  intro a ha
  cases hw : op.write? d with
  | none =>
    rw [opAccs_none hw] at ha
    exact absurd ha not_mem_nil
  | some w =>
    have hdec := @opAccs_decoded d sid ret op w hw false
    have hne : opAccs d sid ret false op ≠ [] := ne_nil_of_mem ha
    rw [← dropLast_append_getLast hne] at ha
    rcases mem_append.1 ha with ha | ha
    · exact hdec.plain a ha
    · exact hdec.last a (by rw [mem_singleton.1 ha]; exact getLast?_eq_some_getLast hne)

theorem opAccs_empty {op : TxnOp} (h : op.nwords d = 0) (ack : Bool) : opAccs d sid ret ack op = [] := by
  cases hw : op.write? d with
  | none => exact opAccs_none hw ack
  | some w =>
    have hzero : w.nwords = 0 := by rwa [TxnOp.nwords, hw] at h
    rw [opAccs_some hw, hzero, pktAccs]
    cases ack <;> rfl

theorem writes_eq_nil {op : TxnOp} : op.writes d = [] ↔ op.nwords d = 0 := by
  rw [TxnOp.writes, TxnOp.nwords]
  cases op.write? d with
  | none => exact iff_of_true rfl rfl
  | some w =>
    show (range w.nwords).map _ = [] ↔ w.nwords = 0
    rw [map_eq_nil_iff, range_eq_nil]

theorem opAccs_oneAck {op : TxnOp} (h : op.nwords d ≠ 0) : OneAck (opAccs d sid ret true op) := by
  cases hw : op.write? d with
  | none =>
    rw [TxnOp.nwords, hw] at h
    exact absurd rfl h
  | some w =>
    have hdec := @opAccs_decoded d sid ret op w hw true
    have hne : opAccs d sid ret true op ≠ [] := by
      intro hnil
      have hwrites := @opAccs_writes d sid ret true op
      rw [hnil] at hwrites
      exact h (writes_eq_nil.1 hwrites.symm)
    obtain ⟨hop, hbeats, _⟩ := hdec.last _ (getLast?_eq_some_getLast hne)
    refine ⟨_, _, (dropLast_append_getLast hne).symm, hop, ?_, hdec.plain⟩
    have hwf := (opAccs_headers true op _ (getLast_mem hne)).1
    exact hwf.trans hbeats

theorem txnAccs_concat (op : TxnOp) (ops : List TxnOp) : txnAccs d sid lastwriteack ret (ops ++ [op]) =
    ops.flatMap (opAccs d sid ret false) ++ opAccs d sid ret lastwriteack op := by
  induction ops with
  | nil =>
    show opAccs d sid ret (lastwriteack && true) op ++ [] = _
    rw [Bool.and_true, append_nil]
    rfl
  | cons q ops ih =>
    have hcons : (ops ++ [op]).isEmpty = false := by cases ops <;> rfl
    rw [cons_append, txnAccs, ih, hcons, Bool.and_false, flatMap_cons, append_assoc]

theorem txnAccs_headers : ∀ (ops : List TxnOp), ∀ a ∈ txnAccs d sid lastwriteack ret ops, a.WellFormed ∧
    (runtimeCtrlParsePktHdr a.stream).ok ∧ (runtimeCtrlParsePktHdr a.stream).id = sid % 32 ∧
      (runtimeCtrlParseCtrlHdr a.ctrl).ok := by
  intro ops
  induction ops with
  | nil => exact nofun
  | cons op ops ih =>
    intro a ha
    rcases mem_append.1 ha with ha | ha
    · exact opAccs_headers _ op a ha
    · exact ih a ha

variable (ops : List TxnOp)

theorem txnAccs_writes :
    (txnAccs d sid lastwriteack ret ops).flatMap Access.writes = ops.flatMap (TxnOp.writes d) := by
  induction ops with
  | nil => rfl
  | cons op ops ih => rw [txnAccs, flatMap_append, opAccs_writes, ih, flatMap_cons]

theorem flatMap_plain : ∀ a ∈ ops.flatMap (opAccs d sid ret false), hdrOp a.ctrl = 0 := by
  intro a ha
  obtain ⟨op, _, ha⟩ := mem_flatMap.1 ha
  exact opAccs_plain op a ha

variable (d lastwriteack) in
/-- The acknowledgement is asked of a last operation that writes nothing, after
operations that do. -/
def AckLost : Prop :=
  lastwriteack ∧ ops.flatMap (TxnOp.writes d) ≠ [] ∧ ∀ op ∈ ops.getLast?, op.nwords d = 0

/-- **One acknowledgement at the end**, unless it is lost. -/
theorem txnAccs_oneAck {ops : List TxnOp} (hack : lastwriteack) (hne : ops.flatMap (TxnOp.writes d) ≠ []) :
    OneAck (txnAccs d sid lastwriteack ret ops) ↔ ∀ op ∈ ops.getLast?, ¬op.nwords d = 0 := by
  rcases eq_nil_or_concat' ops with rfl | ⟨init, op, rfl⟩
  · exact absurd rfl hne
  · rw [txnAccs_concat, hack, getLast?_concat]
    constructor
    · rintro ⟨pre, a, heq, hop, _⟩ q hq hzero
      -- nothing of the last operation: all accesses are plain
      obtain rfl := mem_some_iff.1 hq
      rw [opAccs_empty hzero, append_nil] at heq
      have hplain := @flatMap_plain d sid ret init a (by rw [heq]; exact mem_append_right _ mem_cons_self)
      omega
    · intro hlast
      obtain ⟨pre, a, heq, hop, hlen, hpre⟩ := @opAccs_oneAck d sid ret op (hlast op (mem_some_iff.2 rfl))
      refine ⟨init.flatMap (opAccs d sid ret false) ++ pre, a, ?_, hop, hlen, ?_⟩
      · rw [heq, append_assoc]
      · intro b hb
        rcases mem_append.1 hb with hb | hb
        · exact flatMap_plain init b hb
        · exact hpre b hb

end Packets

/-! ### The translation -/

section Translate

variable {d : TxnDev} {sid : ℕ} {targetRow : ℤ} {cap : ℕ} {lastwriteack : Bool} {ret : ℕ} {txn : Txn d}
  {out : ℕ → ℕ} {nwordsOut : ℕ}

theorem translate_ok (hcap : cap < 2 ^ 32) (h : Translatable d sid targetRow cap lastwriteack ret txn.ops) :
    ∃ o : Out, rtCtrlTxnTranslate d sid targetRow cap lastwriteack ret txn out nwordsOut = ⟨0, o.idx, o.p⟩ ∧
      walk o.words = some (txnAccs d sid lastwriteack ret txn.ops) := by
  have hroom : Out.idx ⟨0, out⟩ + _ ≤ cap := (zero_add _).trans_le h.2
  obtain ⟨o, hrun, hwords⟩ := txnLoop_ok hcap txn.count txn.ops 0 _ (zero_add _) txn.sizes h.1 hroom
  refine ⟨o, ?_, ?_⟩
  · rw [rtCtrlTxnTranslate, hrun]
  · rw [hwords]
    exact walk_words fun a ha => (txnAccs_headers txn.ops a ha).1

theorem translate_error (hcap : cap < 2 ^ 32)
    (h : ¬Translatable d sid targetRow cap lastwriteack ret txn.ops) :
    ∃ p, rtCtrlTxnTranslate d sid targetRow cap lastwriteack ret txn out nwordsOut = ⟨-1, nwordsOut, p⟩ := by
  obtain ⟨p, hrun⟩ := @txnLoop_error d sid targetRow cap lastwriteack ret _ hcap txn.count txn.ops 0 ⟨0, out⟩
    (zero_add _) txn.sizes (Nat.zero_le cap) fun hpass => h ⟨hpass.1, (zero_add _).symm.trans_le hpass.2⟩
  refine ⟨p, ?_⟩
  rw [rtCtrlTxnTranslate, hrun]

theorem not_translates (hcap : cap < 2 ^ 32) (h : Translatable d sid targetRow cap lastwriteack ret txn.ops)
    (hlost : AckLost d lastwriteack txn.ops) :
    ¬Translates d sid targetRow cap lastwriteack ret txn out nwordsOut
      (rtCtrlTxnTranslate d sid targetRow cap lastwriteack ret txn out nwordsOut) := by
  intro ht
  obtain ⟨o, hrun, hwalk⟩ := @translate_ok d sid targetRow cap lastwriteack ret txn out nwordsOut hcap h
  rw [hrun] at ht
  obtain ⟨accs, hwalk', _, _, hone⟩ := ht.decodes rfl
  obtain rfl := some.inj (hwalk.symm.trans hwalk')
  have hlast := (txnAccs_oneAck hlost.1 hlost.2.1).1 (hone hlost.1 hlost.2.1)
  rcases eq_nil_or_concat' txn.ops with hnil | ⟨init, op, hops⟩
  · rw [hnil] at hlost
    exact hlost.2.1 rfl
  · rw [AckLost, hops, getLast?_concat] at hlost
    rw [hops, getLast?_concat] at hlast
    exact hlast op rfl (hlost.2.2 op rfl)

/-- **The translation keeps its contract** on every transaction, unless it succeeds with
the acknowledgement on an empty block write at the end. -/
theorem translates_iff (hcap : cap < 2 ^ 32) :
    Translates d sid targetRow cap lastwriteack ret txn out nwordsOut
      (rtCtrlTxnTranslate d sid targetRow cap lastwriteack ret txn out nwordsOut) ↔
    ¬(Translatable d sid targetRow cap lastwriteack ret txn.ops ∧ AckLost d lastwriteack txn.ops) := by
  refine ⟨fun ht h => not_translates hcap h.1 h.2 ht, fun h => ?_⟩
  by_cases htr : Translatable d sid targetRow cap lastwriteack ret txn.ops
  · obtain ⟨o, hrun, hwalk⟩ := @translate_ok d sid targetRow cap lastwriteack ret txn out nwordsOut hcap htr
    rw [hrun]
    refine ⟨iff_of_true rfl htr, fun _ => ⟨_, hwalk, ?_, txnAccs_writes txn.ops, ?_⟩, fun hrc =>
      absurd rfl hrc⟩
    · exact fun a ha => (txnAccs_headers txn.ops a ha).2
    · intro hack hne
      rw [txnAccs_oneAck hack hne]
      -- the last operation exists and the acknowledgement is not lost on it
      intro op hop hzero
      refine h ⟨htr, hack, hne, fun q hq => ?_⟩
      rwa [mem_unique hq hop]
  · obtain ⟨p, hrun⟩ := @translate_error d sid targetRow cap lastwriteack ret txn out nwordsOut hcap htr
    rw [hrun]
    exact ⟨iff_of_false (by show ¬(-1 : ℤ) = 0; decide) htr,
      fun hrc => absurd hrc (by show ¬(-1 : ℤ) = 0; decide),
      fun _ => rfl⟩

/-- A device whose tiles are all core tiles. -/
def coreDev : TxnDev := ⟨20, 25, fun _ _ => true, 24⟩

def oneWrite : Txn coreDev := ⟨[.write32 0x1000 5], by decide, fun _ h => by rw [mem_singleton.1 h]; trivial⟩

/-- A register write and an empty block write. -/
def writeThenEmpty : Txn coreDev where
  ops := [.write32 0x1000 5, .blockWrite32 0x1000 24 fun _ => 0]
  count := by decide
  sizes := by
    intro op hop
    rcases mem_pair.1 hop with rfl | rfl
    · trivial
    · exact ⟨le_rfl, rfl, by decide⟩

/-- One register write, acknowledged. -/
theorem translates_oneWrite : Translates coreDev 7 (-1) 3 true 0 oneWrite (fun _ => 0) 0
    (rtCtrlTxnTranslate coreDev 7 (-1) 3 true 0 oneWrite (fun _ => 0) 0) := by
  refine (translates_iff (by decide)).2 fun h => ?_
  have hlast := h.2.2.2 (.write32 0x1000 5) rfl
  exact absurd hlast (by decide)

/-- An empty block write after the register write loses its acknowledgement. -/
theorem not_translates_empty : ¬Translates coreDev 7 (-1) 8 true 0 writeThenEmpty (fun _ => 0) 0
    (rtCtrlTxnTranslate coreDev 7 (-1) 8 true 0 writeThenEmpty (fun _ => 0) 0) := by
  have hcast : ∀ op ∈ writeThenEmpty.ops, op.Castable coreDev (-1) := by
    intro op hop
    rcases mem_pair.1 hop with rfl | rfl
    · exact ⟨_, rfl, rfl⟩
    · exact ⟨_, rfl, rfl⟩
  refine not_translates (by decide) ⟨hcast, ?_⟩ ⟨rfl, by decide, ?_⟩
  · have hlen : ((txnAccs coreDev 7 true 0 writeThenEmpty.ops).flatMap Access.words).length = 3 := rfl
    rw [hlen]
    decide
  · intro op hop
    obtain rfl := mem_some_iff.1 (show op ∈ some (TxnOp.blockWrite32 0x1000 24 fun _ => 0) from hop)
    rfl

end Translate

end AieHlc.Packet
