import AieHlc.Packet.Access
import AieHlc.Prog.Emit

/-!
# The segment encoder

Model of `rt_cpe_seg_reset`, `rt_cpe_seg_write` and `rt_cpe_seg_finish`
(`aie_ctrlpkt_encode.c`). Words are written one at a time; a word that continues
the last access, inside its 16-byte block, is added to it by rewriting the
access's header in place. Finishing turns the last word into a write with
return, splitting it off its access if it has company.

All counters are 32-bit: `pw + 5` is compared with the capacity after wrapping.
-/

namespace AieHlc.Packet

open AieHlc.Word AieHlc.Prog

/-- `RT_CPE_NONE`. -/
def RT_CPE_NONE : ℕ := 0xFFFFFFFF

/-- A segment and its buffer: words written, index of the last control header
(`rt_cpe_seg`), and the buffer. -/
structure Seg where
  pw : ℕ
  last : ℕ
  p : ℕ → ℕ

/-- An encoder call: return code 0, or -1 with what was written before. -/
abbrev SegM := EStateM Unit Seg

/-- `rt_cpe_seg_reset`; the buffer keeps its contents. -/
def rtCpeSegReset (p : ℕ → ℕ) : Seg := ⟨0, RT_CPE_NONE, p⟩

/-- `cpe_words_to_boundary`. -/
def cpeWordsToBoundary (byteAddr : ℕ) : ℕ :=
  let left := (16 - (byteAddr &&& 0xF)) / 4
  if left ≠ 0 then left else 1

variable (s : Seg)

/-- `p[s->pw++] = v`. -/
def Seg.push (v : ℕ) : Seg := { s with p := Function.update s.p s.pw v, pw := u32 (s.pw + 1) }

/-- `p[i] = v`. -/
def Seg.store (i v : ℕ) : Seg := { s with p := Function.update s.p i v }

/-- Whether a word at `off` continues the last access. -/
def Seg.continues (off : ℕ) : Prop :=
  s.last ≠ RT_CPE_NONE ∧ off = u32 (hdrAddr (s.p s.last) + 4 * hdrBeats (s.p s.last)) ∧
    hdrBeats (s.p s.last) < cpeWordsToBoundary (hdrAddr (s.p s.last))

instance (s : Seg) (off : ℕ) : Decidable (s.continues off) := inferInstanceAs (Decidable (_ ∧ _ ∧ _))

def Seg.extend (d : ℕ) : Seg :=
  (s.store s.last (cpeCtrlWord (hdrAddr (s.p s.last) ||| (hdrBeats (s.p s.last) <<< 20)))).push d

def Seg.start (hdr off d : ℕ) : Seg :=
  let s1 := s.push hdr
  (({ s1 with last := s1.pw } : Seg).push (cpeCtrlWord (off &&& 0xFFFFF))).push d

/-- One round of the loop of `rt_cpe_seg_write`. -/
def segWord (cap hdr off d : ℕ) : SegM Unit := do
  let s ← get
  if u32 (s.pw + 5) > cap then throw ()
  else if s.continues off then set (s.extend d)
  else set (s.start hdr off d)

/-- The loop of `rt_cpe_seg_write`, over the data words left. -/
def segWords (cap hdr : ℕ) : ℕ → List ℕ → SegM Unit
  | _, [] => pure ()
  | off, d :: ds => do
    segWord cap hdr off d
    segWords cap hdr (u32 (off + 4)) ds

/-- `rt_cpe_seg_write`. -/
def rtCpeSegWrite (cap streamId off : ℕ) (data : List ℕ) : SegM Unit :=
  segWords cap (cpeStreamHdr streamId) off data

/-- The last access split before its last word, which gets an access of its own. -/
def Seg.split : Seg :=
  let aoff := hdrAddr (s.p s.last)
  let nw := hdrBeats (s.p s.last)
  let d := s.p (u32sub s.pw 1)
  let s1 := s.store s.last (cpeCtrlWord (aoff ||| ((nw - 2) <<< 20)))
  let s2 := s1.store (u32sub s1.pw 1) (s1.p (u32sub s1.last 1))
  (({ s2 with last := s2.pw } : Seg).push 0).push d

/-- `rt_cpe_seg_finish`: the length to send and the finished segment. -/
def rtCpeSegFinish : ℕ × Seg :=
  if s.last = RT_CPE_NONE then (0, s)
  else
    let aoff := hdrAddr (s.p s.last)
    let nw := hdrBeats (s.p s.last)
    let s' := if nw > 1 then s.split else s
    let aoff' := if nw > 1 then (aoff + 4 * (nw - 1)) &&& 0xFFFFF else aoff
    let s'' := s'.store s'.last (cpeCtrlWord (aoff' ||| (0x2 <<< 22)))
    (s''.pw, s'')

def Seg.words : List ℕ := (List.range s.pw).map s.p

/-- One call of the encoder. -/
structure SegCall where
  off : ℕ
  data : List ℕ

def SegCall.writes (c : SegCall) : List (ℕ × ℕ) :=
  c.data.mapIdx fun i d => ((c.off + 4 * i) % 2 ^ 20, d)

/-- A sequence of calls for one stream. -/
def segRun (cap streamId : ℕ) (calls : List SegCall) : SegM Unit :=
  calls.forM fun c => rtCpeSegWrite cap streamId c.off c.data

/-- The segment `s` spells the writes of `calls`, with every access a plain write. -/
structure Spells (calls : List SegCall) (s : Seg) (accs : List Access) : Prop where
  walk : walk s.words = some accs
  writes : accs.flatMap Access.writes = calls.flatMap SegCall.writes
  parity : ∀ a ∈ accs, a.OddParity
  plain : ∀ a ∈ accs, hdrOp a.ctrl = 0
  block : (∀ c ∈ calls, c.off % 4 = 0) → ∀ a ∈ accs, a.InBlock

/-- The finished segment `s` spells the writes of `calls`, with exactly its last
access a one-word write with return. -/
structure SpellsFinished (calls : List SegCall) (s : Seg) (accs : List Access) : Prop where
  walk : walk s.words = some accs
  writes : accs.flatMap Access.writes = calls.flatMap SegCall.writes
  parity : ∀ a ∈ accs, a.OddParity
  ack : accs = [] ∨ ∃ init a, accs = init ++ [a] ∧ hdrOp a.ctrl = 2 ∧ a.data.length = 1 ∧
    ∀ b ∈ init, hdrOp b.ctrl = 0

/-- The round trip of a segment: the writes are read back before and after finishing,
finishing fits the capacity and happens once. -/
structure RoundTrip (cap : ℕ) (calls : List SegCall) (s : Seg) : Prop where
  spells : ∃ accs, Spells calls s accs
  finished : ∃ accs, SpellsFinished calls (rtCpeSegFinish s).2 accs
  length : (rtCpeSegFinish s).1 = (rtCpeSegFinish s).2.pw
  fits : (rtCpeSegFinish s).1 ≤ cap
  again : rtCpeSegFinish (rtCpeSegFinish s).2 = rtCpeSegFinish s

end AieHlc.Packet
