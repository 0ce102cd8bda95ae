import AieHlc.Shim.Relaunch
import AieHlc.Packet.Patch

/-!
# A shim-BD window at run time

Model of `rt_sb_*` (`aie_runtime.c`): between `rt_sb_begin` and `rt_sb_commit` the
register writes of the calls on the shim row are collected in one segment per column,
and `rt_sb_kick` sends the segments. With a table of the offline tool, a call that
matches the table's next entry is only noted; the commit then overlays the table's
words, patched with the buffers' addresses. On any mismatch the noted calls are
executed after all.

What leaves the host is kept in the log `out`: batches of segments, and the calls (or
the return route) executed directly.

* `rtSbKick`, `rtSbCall`: sending the segments, and one captured call.
* `aotTake`, `aotFail`, `aotApply`: following the table, leaving it, and using it.
* `rtSbBegin`, `rtSbCommit`, `Launch.run`: a whole window.
-/

namespace AieHlc.Shim

open AieHlc.Word AieHlc.Packet

deriving instance DecidableEq for Fabric

/-- One segment as sent, and whether it is only the pad write of an empty column. -/
structure Sent where
  words : List ℕ
  pad : Bool
  deriving DecidableEq

/-- What leaves the host: the segments of a kick, a call executed directly, or the return
route written directly. -/
inductive Output where
  | batch (sent : List Sent)
  | direct (c : Call)
  | route (ws : List (ℕ × ℕ × ℕ))

/-- What a window depends on beside its calls: whether the fabric can have a window now,
whether the driver calls of the route and of arming succeed, whether the armed chain is
kept, and the register of the pad write, if the device has one. -/
structure Env where
  ready : Bool
  routeOk : Bool
  armOk : Bool
  keepArmed : Bool
  pad : Option ℕ

/-- `rt_sb_state`, with the calls noted so far (`g_sb_rec`) and the log. -/
structure Sb where
  active : Bool
  armed : Bool
  routeNow : Bool
  aotFailed : Bool
  f : Option Fabric
  routed : Option Fabric
  lo : ℕ
  hi : ℕ
  seg : Segs
  aot : Option Table
  recs : List Call
  out : List Output

def Sb.ncols (s : Sb) : ℕ := s.hi - s.lo + 1

/-- `rt_sb_in_window`, for a tile of the device. -/
def Sb.inWindow (s : Sb) (c : Call) : Bool := s.active && inRange s.lo s.hi c.col c.row

/-- `RT_SB_AOT_MAX_CALLS`. -/
def AOT_MAX_CALLS : ℕ := 128

/-- `RT_AOT_NO_PATCH`. -/
def NO_PATCH : ℕ := 0xFFFF

/-! ### Sending -/

/-- Whether the column gets a pad write: it is empty and the chain is armed. -/
def Sb.padded (E : Env) (s : Sb) (k : ℕ) : Bool := E.pad.isSome && s.armed && (s.seg k).pw == 0

/-- The segment of a column, padded if need be. -/
def Sb.padSeg (E : Env) (s : Sb) (k : ℕ) : Seg :=
  if s.padded E k then (putReg s.seg k (E.pad.getD 0) 0).elim (s.seg k) (· k) else s.seg k

def Sb.sentWords (E : Env) (s : Sb) (k : ℕ) : List ℕ :=
  let r := rtCpeSegFinish (s.padSeg E k)
  (List.range r.1).map r.2.p

def Sb.sent (E : Env) (s : Sb) : List Sent :=
  (List.range s.ncols).map fun k => ⟨s.sentWords E k, s.padded E k⟩

def nseg (sent : List Sent) : ℕ := sent.countP fun x => x.words ≠ []

/-- `rt_sb_kick`. -/
def rtSbKick (E : Env) (s : Sb) : Sb :=
  let n := nseg (s.sent E)
  { s with
    seg := resetSegs fun k => (rtCpeSegFinish (s.padSeg E k)).2.p
    armed := if n = 0 then s.armed else E.keepArmed && s.armed && n == s.ncols
    out := if n = 0 then s.out else s.out ++ [.batch (s.sent E)] }

/-! ### Calls -/

variable (D : Driver)

/-- The segments after the call, `none` when it cannot be captured. -/
def capture (s : Sb) (c : Call) : Option Segs :=
  (D.words c).bind fun ws => (appendRecords s.lo s.hi (ws.map fun w => (c.col, w)) s.seg).map Prod.fst

/-- `RT_SB_CALL`: the call is captured inside the window. If that fails, the segments are
put back and sent, and the call is executed directly. -/
def rtSbCall (E : Env) (s : Sb) (c : Call) : Sb :=
  if s.inWindow c then
    match capture D s c with
    | some st => { s with seg := st }
    | none => { rtSbKick E s with out := (rtSbKick E s).out ++ [.direct c] }
  else { s with out := s.out ++ [.direct c] }

/-- `rt_sb_aot_fail`: the noted calls are executed after all. -/
def aotFail (E : Env) (s : Sb) : Sb :=
  if s.aot.isNone ∨ s.aotFailed then s else s.recs.foldl (rtSbCall D E) { s with aotFailed := true }

/-- Whether a call is the one of the entry. -/
def SbCall.matches (e : SbCall) (c : Call) : Bool :=
  e.kind == c.kind && e.col == c.col && e.row == c.row &&
    match c.kind with
    | .bd | .bdOoo => e.bd == lowBits 8 (c.args.headD 0) && e.argHash == rtAotBdHash c.args
    | .chOoo => e.ch == c.ch && e.dir == c.dir
    | .start => e.ch == c.ch && e.dir == c.dir && e.bd == c.bd && e.rep == lowBits 8 c.rep

/-- `rt_sb_aot_take`: whether the call was noted, and the state. -/
def aotTake (E : Env) (s : Sb) (c : Call) : Bool × Sb :=
  match s.aot with
  | none => (false, s)
  | some t =>
    if s.aotFailed ∨ ¬s.inWindow c then (false, s)
    else
      match (t.calls.take AOT_MAX_CALLS)[s.recs.length]? with
      | none => (false, aotFail D E s)
      | some e => if e.matches c then (true, { s with recs := s.recs ++ [c] }) else (false, aotFail D E s)

def rtSbDo (E : Env) (s : Sb) (c : Call) : Sb :=
  let r := aotTake D E s c
  if r.1 then r.2 else rtSbCall D E r.2 c

/-! ### Using the table -/

/-- The address words of one entry, in the buffer of segment `k`. -/
def patchEntry (k sh : ℕ) (p : ℕ → ℕ) (e : SbCall × Call) : ℕ → ℕ :=
  if e.1.seg = k ∧ e.1.kind.isBd then
    match D.addrFields e.1.col e.1.row e.2.addr with
    | none => p
    | some fld => (e.1.patch.zip fld).foldl (fun p a =>
        if a.1 ≠ NO_PATCH ∧ sh ≤ a.1 then Function.update p (a.1 - sh) (p (a.1 - sh) ||| a.2) else p) p
  else p

variable (t : Table)

variable (recs : List Call)

/-- `rt_sb_aot_patch`. -/
def aotPatch (k sh : ℕ) (p : ℕ → ℕ) : ℕ → ℕ :=
  (t.calls.zip recs).foldl (patchEntry D k sh) p

/-- The segment with the table's words from `sh` on. -/
def overlay (k sh : ℕ) (s : Seg) : Seg :=
  let len := t.segLen k - sh
  let p := fun i => if s.pw ≤ i ∧ i < len then (t.seg k).getD (sh + i) 0 else s.p i
  ⟨len, if len ≠ 0 then u32sub (t.segLast k) sh else RT_CPE_NONE, aotPatch D t recs k sh p⟩

/-- The checks of `rt_sb_aot_apply` for a column, and the segment it makes. -/
def applyColumn (routeNow : Bool) (k : ℕ) (s : Seg) : Option Seg :=
  if t.segLen k > SEG_WORDS ∨ t.prefixLen k > t.segLen k then none
  else
    (t.shift routeNow k).bind fun sh =>
      let held := if sh = 0 then t.prefixLen k else 0
      if s.pw = held ∧ (List.range held).map s.p =
        (t.seg k).take held then some (overlay D t recs k sh s) else none

/-- `rt_sb_aot_apply`. -/
def aotApply (s : Sb) : Option Segs :=
  if t.lo = s.lo ∧ t.hi = s.hi ∧ s.recs.length = t.calls.length ∧ s.ncols ≤ MAX_COLS ∧
      ∀ k < s.ncols, (applyColumn D t s.recs s.routeNow k (s.seg k)).isSome then
    some fun k => if k < s.ncols then (applyColumn D t s.recs s.routeNow k (s.seg k)).getD (s.seg k)
      else s.seg k
  else none

/-! ### The window -/

/-- The segments seeded with the table's route words. -/
def seedSegs (s : Sb) : Option Segs :=
  if t.lo = s.lo ∧ t.hi = s.hi ∧ s.ncols ≤ MAX_COLS ∧ ∀ k < s.ncols, t.prefixLen k ≤ SEG_WORDS then
    some fun k =>
      if k < s.ncols then
        ⟨t.prefixLen k, if t.prefixLen k ≠ 0 then t.prefixLast k else RT_CPE_NONE,
          fun i => if i < t.prefixLen k then (t.seg k).getD i 0 else (s.seg k).p i⟩
      else s.seg k
  else none

/-- The return half of `rt_sb_route`: from the table, captured, or written directly. -/
def rtSbRoute (t : Option Table) (F : Fabric) (s : Sb) : Sb :=
  match t.bind (seedSegs · s) with
  | some st => { s with seg := st }
  | none =>
    match appendRecords s.lo s.hi F.ret s.seg with
    | some r => { s with seg := r.1 }
    | none => { s with out := s.out ++ [.route F.ret] }

/-- The window's fabric and empty segments, as `rt_sb_prepare` sets them. -/
def Sb.enter (s : Sb) (F : Fabric) : Sb :=
  { s with f := some F, lo := F.lo, hi := F.hi, seg := resetSegs fun k => (s.seg k).p }

/-- `rt_sb_prepare`. -/
def rtSbPrepare (E : Env) (t : Option Table) (F : Fabric) (s : Sb) : Sb :=
  if ¬(E.ready = true ∧ F.fits = true) then s
  else if s.routed = some F then { s.enter F with armed := E.armOk }
  else if E.routeOk then
    { rtSbRoute t F (s.enter F) with routed := some F, routeNow := true, armed := E.armOk }
  else s.enter F

/-- `rt_sb_begin`. -/
def rtSbBegin (E : Env) (t : Option Table) (F : Fabric) (s : Sb) : Sb :=
  if s.active then s
  else
    let s0 := { s with routeNow := false }
    let s1 := if ¬s.armed ∨ s.f ≠ some F then rtSbPrepare E t F s0 else s0
    let on := s1.routed = some F ∧ s1.f = some F
    { s1 with active := on, aot := if on then t else none, recs := [], aotFailed := false }

/-- The state when the commit sends: with the table's words, or with the calls executed. -/
def rtSbResolve (E : Env) (s : Sb) : Sb :=
  match s.aot with
  | none => s
  | some t =>
    if s.aotFailed then s
    else
      match aotApply D t s with
      | some st => { s with seg := st }
      | none => aotFail D E s

/-- `rt_sb_commit`. -/
def rtSbCommit (E : Env) (s : Sb) : Sb :=
  if s.active then { rtSbKick E (rtSbResolve D E s) with active := false, aot := none } else s

/-- A window of the host program: its fabric, what the offline tool saw (its buffers and
calls) if there is a table, and the calls made. -/
structure Launch where
  F : Fabric
  env : Env
  built : Option ((ℕ → ℕ → ℕ) × List Call)
  calls : List Call

variable (L : Launch)

/-- The table of the launch. -/
def Launch.table : Option Table := L.built.bind fun b => buildWindow D L.F b.1 b.2

/-- The launch without its table. -/
def Launch.plain : Launch := { L with built := none }

/-- The state after `rt_sb_begin`. -/
def Launch.opened (s : Sb) : Sb := rtSbBegin L.env (L.table D) L.F s

/-- The state before `rt_sb_commit`. -/
def Launch.called (s : Sb) : Sb := L.calls.foldl (rtSbDo D L.env) (L.opened D s)

/-- A whole window. -/
def Launch.run (s : Sb) : Sb := rtSbCommit D L.env (L.called D s)

/-- The state before the first window, with segment buffers `p`. -/
def powerOn (p : ℕ → ℕ → ℕ) : Sb :=
  { active := false, armed := false, routeNow := false, aotFailed := false, f := none,
    routed := none, lo := 0, hi := 0,
    seg := resetSegs p, aot := none, recs := [], out := [] }

/-- The state after the windows `hist`. -/
def after (p : ℕ → ℕ → ℕ) (hist : List Launch) : Sb := hist.foldl (fun s L => L.run D s) (powerOn p)

end AieHlc.Shim
