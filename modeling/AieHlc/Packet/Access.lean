import AieHlc.Word.Bits

/-!
# Control-packet accesses

A segment is a sequence of accesses: a stream header, a control header and one
to four data words. The control header holds the byte address (20 bits), the
number of data words less one (2 bits), the operation (2 bits) and, in its top
bit, odd parity, as `cpe_ctrl_word` and `cpe_stream_hdr` build them.

* `walk`: reading a list of words access by access.
* `walk_words`: a list of well-formed accesses is read back exactly.
* `mkAccess`: an access with its header, and its fields read back.
-/

namespace AieHlc.Packet

open List AieHlc.Word

/-- `cpe_parity`: the complement of the parity. -/
def cpeParity (v : ℕ) : ℕ := 1 - parity32 v

/-- `cpe_stream_hdr`. -/
def cpeStreamHdr (streamId : ℕ) : ℕ :=
  let h := streamId &&& 0x1F
  h ||| (cpeParity h <<< 31)

/-- `cpe_ctrl_word`. -/
def cpeCtrlWord (ctrl : ℕ) : ℕ := ctrl ||| (cpeParity ctrl <<< 31)

variable (w : ℕ)

def hdrAddr : ℕ := w &&& 0xFFFFF

def hdrBeats : ℕ := ((w >>> 20) &&& 0x3) + 1

/-- The operation field of a control header: 0 write, 2 write with return. -/
def hdrOp : ℕ := (w >>> 22) &&& 0x3

/-- One access: its two headers and its data words. -/
structure Access where
  stream : ℕ
  ctrl : ℕ
  data : List ℕ
  deriving DecidableEq, Repr

variable (a : Access)

def Access.words : List ℕ := a.stream :: a.ctrl :: a.data

/-- The word writes of an access: consecutive words from its address on. -/
def Access.writes : List (ℕ × ℕ) :=
  a.data.mapIdx fun i d => ((hdrAddr a.ctrl + 4 * i) % 2 ^ 20, d)

def Access.OddParity : Prop := parity32 a.stream = 1 ∧ parity32 a.ctrl = 1

/-- The access stays in one 16-byte block. -/
def Access.InBlock : Prop :=
  hdrAddr a.ctrl / 16 = (hdrAddr a.ctrl + 4 * hdrBeats a.ctrl - 1) / 16

/-- Read a list of words access by access, `fuel` at most; the words must be used up
exactly. -/
def walkF : ℕ → List ℕ → Option (List Access)
  | _, [] => some []
  | 0, _ :: _ => none
  | _ + 1, [_] => none
  | fuel + 1, h :: c :: rest =>
    if rest.length < hdrBeats c then none
    else (walkF fuel (rest.drop (hdrBeats c))).map (⟨h, c, rest.take (hdrBeats c)⟩ :: ·)

/-- Read a list of words access by access. Every access takes some words, so the
number of words is fuel enough. -/
def walk (ws : List ℕ) : Option (List Access) := walkF ws.length ws

/-- As many data words as the header announces. -/
def Access.WellFormed : Prop := a.data.length = hdrBeats a.ctrl

/-- Accesses are read back from their words, given fuel for every word. -/
theorem walkF_words : ∀ (accs : List Access) (fuel : ℕ), (∀ a ∈ accs, a.WellFormed) →
    (accs.flatMap Access.words).length ≤ fuel → walkF fuel (accs.flatMap Access.words) = some accs := by
  intro accs
  induction accs with
  | nil => intro fuel _ _; cases fuel <;> rfl
  | cons a accs ih =>
    intro fuel hwf hlen
    have ha : a.data.length = hdrBeats a.ctrl := hwf a (by simp)
    rw [flatMap_cons, Access.words, cons_append, cons_append] at hlen ⊢
    simp only [length_cons, length_append] at hlen
    cases fuel with
    | zero => omega
    | succ fuel =>
      have hrest := ih fuel (fun b hb => hwf b (by simp [hb])) (by omega)
      have hge : ¬(a.data ++ accs.flatMap Access.words).length < hdrBeats a.ctrl := by
        rw [length_append]; omega
      rw [walkF, if_neg hge, ← ha, drop_left, take_left, hrest]
      rfl

/-- **Well-formed accesses are read back exactly.** -/
theorem walk_words {accs : List Access} (h : ∀ a ∈ accs, a.WellFormed) :
    walk (accs.flatMap Access.words) = some accs :=
  walkF_words accs _ h le_rfl

/-- An access of operation `op` at `addr`, with its control header. -/
def mkAccess (stream op addr : ℕ) (data : List ℕ) : Access :=
  ⟨stream, cpeCtrlWord (addr + (data.length - 1) * 2 ^ 20 + op * 2 ^ 22), data⟩

theorem mkAccess_ctrl (stream addr : ℕ) (data : List ℕ) :
    (mkAccess stream 0 addr data).ctrl = cpeCtrlWord (addr + (data.length - 1) * 2 ^ 20) := by
  have h : addr + (data.length - 1) * 2 ^ 20 + 0 * 2 ^ 22 = addr + (data.length - 1) * 2 ^ 20 := by
    rw [zero_mul, add_zero]
  exact congrArg cpeCtrlWord h

theorem parity_ctrlWord {c : ℕ} (hc : c < 2 ^ 31) : parity32 (cpeCtrlWord c) = 1 := parity32_or_top hc

theorem parity_streamHdr (sid : ℕ) : parity32 (cpeStreamHdr sid) = 1 := by
  refine parity32_or_top ?_
  rw [show (0x1F : ℕ) = 2 ^ 5 - 1 from rfl, and_mask]
  omega

theorem cpeCtrlWord_eq {c : ℕ} (hc : c < 2 ^ 31) : cpeCtrlWord c = c + cpeParity c * 2 ^ 31 :=
  or_shiftLeft_eq_add hc _

theorem hdrAddr_eq : hdrAddr w = w % 2 ^ 20 := by
  rw [hdrAddr, show (0xFFFFF : ℕ) = 2 ^ 20 - 1 from rfl, and_mask]

theorem hdrBeats_eq : hdrBeats w = w / 2 ^ 20 % 4 + 1 := by
  rw [hdrBeats, show (0x3 : ℕ) = 2 ^ 2 - 1 from rfl, and_mask, Nat.shiftRight_eq_div_pow]
  rfl

theorem hdrOp_eq : hdrOp w = w / 2 ^ 22 % 4 := by
  rw [hdrOp, show (0x3 : ℕ) = 2 ^ 2 - 1 from rfl, and_mask, Nat.shiftRight_eq_div_pow]
  rfl

section Fields

variable {addr n op : ℕ} (ha : addr < 2 ^ 20) (hn : n < 4) (ho : op < 4)

include ha hn ho

theorem ctrl_lt : addr + n * 2 ^ 20 + op * 2 ^ 22 < 2 ^ 31 := by omega

theorem hdrAddr_ctrlWord : hdrAddr (cpeCtrlWord (addr + n * 2 ^ 20 + op * 2 ^ 22)) = addr := by
  rw [cpeCtrlWord_eq (ctrl_lt ha hn ho), hdrAddr_eq]
  omega

theorem hdrBeats_ctrlWord : hdrBeats (cpeCtrlWord (addr + n * 2 ^ 20 + op * 2 ^ 22)) = n + 1 := by
  rw [cpeCtrlWord_eq (ctrl_lt ha hn ho), hdrBeats_eq]
  omega

theorem hdrOp_ctrlWord : hdrOp (cpeCtrlWord (addr + n * 2 ^ 20 + op * 2 ^ 22)) = op := by
  rw [cpeCtrlWord_eq (ctrl_lt ha hn ho), hdrOp_eq]
  omega

end Fields

end AieHlc.Packet
