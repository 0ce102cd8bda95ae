import AieHlc.Netboot.Image
import AieHlc.Prog.Ask

/-!
# The netboot supervisor

Model of `apu.c`, `server.c` and the main loop of `main.c`: the driver of the app core, the TCP
server with one request at a time, admission, launch and watchdog. The code runs on variables of its
own (`Sup`) and asks its surroundings: the mailbox it shares with the app core, the platform manager
(PLM), the clock, the staging area and app memory.

* `Req`, `Ans`: the requests of the code and their answers.
* `Sup`: the static variables of the three files.
* `apuParked`, `apuKill`, `apuStart`: the app core; `nbKill`, `nbLaunch`, `nbAdmit`, `watchdog`: runs.
* `onAccept`, `onRecv`, `serverPoll`: the server.
* `Event`, `supervise`: the main loop.
-/

namespace AieHlc.Netboot

open AieHlc.Prog

/-- `stop_how`. -/
inductive StopHow where
  | none
  | power
  | warm
  | cold
  deriving DecidableEq, Repr

/-- What the code asks. -/
inductive Req where
  /-- whether `nb_mbox.state` is 1 -/
  | parked
  /-- `nb_mbox.rc` -/
  | exitRc
  | clearParked
  | setEntry (entry : ℕ)
  | bumpSeq
  /-- `XPm_ForcePowerDown` or `XPm_ResetAssert` -/
  | stop (how : StopHow)
  | wake (entry : ℕ)
  /-- release of a reset -/
  | release (how : StopHow)
  | now
  /-- `nb_sha256` of the first bytes of the staging area -/
  | digest (size : ℕ)
  /-- `elf_place` and `elf_patch_exit`: the entry point and whether `_exit` was patched -/
  | place (size : ℕ)
  /-- `memcpy` into the staging area -/
  | stage (off : ℕ) (bytes : List UInt8)
  deriving DecidableEq, Repr

@[reducible]
def Ans : Req → Type
  | .parked => Bool
  | .exitRc => ℤ
  | .clearParked => Unit
  | .setEntry _ => Unit
  | .bumpSeq => Unit
  | .stop _ => Bool
  | .wake _ => Bool
  | .release _ => Bool
  | .now => ℕ
  | .digest _ => List UInt8
  | .place _ => Option (ℕ × Bool)
  | .stage _ _ => Unit

/-- `netboot_state`. -/
inductive NbState where
  | idle
  | running
  | killed
  | timeout
  | exited
  deriving DecidableEq, Repr

/-- `netboot_verdict`. -/
inductive Verdict where
  | ok
  | busy
  | overtime
  | stuck
  | serving
  | reject
  deriving DecidableEq, Repr

/-- `netboot_core`. -/
inductive CoreView where
  | free
  | parked
  | busy
  deriving DecidableEq, Repr

def NETBOOT_REQ_MAGIC : ℕ := 0x3154424E
def NETBOOT_VERSION : ℕ := 2
def NETBOOT_CMD_LOAD_RUN : ℕ := 1
def NETBOOT_CMD_RERUN : ℕ := 2
def NETBOOT_CMD_KILL : ℕ := 3
def NETBOOT_CMD_STATUS : ℕ := 4
def NETBOOT_F_FORCE : ℕ := 1
def NB_DEFAULT_TIMEOUT_MS : ℕ := 60000

/-- `netboot_req`. -/
structure NetbootReq where
  magic : ℕ
  version : ℕ
  cmd : ℕ
  flags : ℕ
  elfSize : ℕ
  maxRunMs : ℕ
  sha256 : List UInt8
  deriving DecidableEq, Repr

def sizeofReq : ℕ := 64

/-- A header as it was received; what has not arrived is zero. -/
@[irreducible]
def NetbootReq.read (hdr : List UInt8) : NetbootReq :=
  let μ : Mem := fun x => hdr.getD x 0
  { magic := le μ 0 4, version := le μ 4 4, cmd := le μ 8 4, flags := le μ 12 4, elfSize := le μ 16 8,
    maxRunMs := le μ 24 4, sha256 := (List.range 32).map fun j => μ (32 + j) }

/-- The bytes of a request of the first version, without flags. -/
def requestBytes (cmd size : ℕ) (sha256 : List UInt8) : List UInt8 :=
  bytesLE 4 NETBOOT_REQ_MAGIC ++ bytesLE 4 1 ++ bytesLE 4 cmd ++ bytesLE 4 0 ++ bytesLE 8 size ++
    bytesLE 4 0 ++
    bytesLE 4 0 ++ sha256

def noDigest : List UInt8 := List.replicate 32 0

/-- `netboot_ack`, without its text. -/
structure Ack where
  verdict : Verdict := .ok
  state : NbState
  core : CoreView
  runMs : ℕ := 0
  maxRunMs : ℕ
  remainingMs : ℕ := 0
  retryAfterMs : ℕ := 0
  canStop : ℕ
  runs : ℕ
  deriving DecidableEq, Repr

/-- `netboot_rep`, without its text. -/
structure Rep where
  rc : ℤ
  bytesRx : ℕ
  rxMs : ℕ
  placeMs : ℕ
  entry : ℕ
  state : NbState
  runMs : ℕ
  runs : ℕ
  deriving DecidableEq, Repr

/-- What was sent: an ack, or a reply to a command, and whether the request had been admitted. -/
inductive Sent where
  | ack (a : Ack)
  | rep (cmd : ℕ) (admitted : Bool) (r : Rep)
  deriving DecidableEq, Repr

/-- `struct conn`. -/
structure Conn where
  hdr : List UInt8 := []
  payloadGot : ℕ := 0
  tFirstMs : ℕ := 0
  ready : Bool := false
  acked : Bool := false
  deriving DecidableEq, Repr

def Conn.req (c : Conn) : NetbootReq := NetbootReq.read c.hdr

/-- The variables of the supervisor. -/
structure Sup where
  /-- `s_ready` -/
  ready : Bool
  /-- `s_powered` -/
  powered : Bool := false
  /-- `s_stop` -/
  stop : StopHow := .none
  /-- `s_can_stop` -/
  canStop : ℕ := 2
  state : NbState := .idle
  stagedSize : ℕ := 0
  entry : ℕ := 0
  runStartMs : ℕ := 0
  timeoutMs : ℕ := 0
  runs : ℕ := 0
  /-- `s_busy` -/
  busy : Bool := false
  conn : Conn := {}
  sent : List Sent := []
  /-- the digests that were found equal to that of the staging area -/
  verified : List (List UInt8) := []
  deriving DecidableEq, Repr

abbrev SupM := Code Sup Req Ans

def askFor (q : Req) : SupM (Ans q) := request q

/-- A part that is done only under a condition. -/
def whenDo (c : Bool) (p : SupM Unit) : SupM Unit := if c then p else pure ()

/-! ## The app core -/

def apuParked : SupM Bool := do
  let s ← get
  if s.powered then askFor .parked else pure false

def apuRelease (entry : ℕ) : SupM Unit := do
  askFor .clearParked
  askFor (.setEntry entry)
  askFor .bumpSeq

/-- The ways to stop the core, one after the other. -/
def tryStops : SupM (Option StopHow) := do
  if ← askFor (.stop .power) then pure (some .power)
  else if ← askFor (.stop .warm) then pure (some .warm)
  else if ← askFor (.stop .cold) then pure (some .cold)
  else pure none

def apuKill : SupM ℤ := do
  let s ← get
  if s.ready = false then pure (-1)
  else if s.powered = false then pure 0
  else match ← tryStops with
    | some how => do
      modify fun s => { s with stop := how, canStop := 1, powered := false }
      pure 0
    | none => do
      modify fun s => { s with canStop := 0 }
      pure (-1)

/-- The wake of a core that is down, and the release of the reset it is held in. -/
def wakeCore (entry : ℕ) : SupM Bool := do
  let st ← askFor (.wake entry)
  let s ← get
  if s.stop = .warm ∨ s.stop = .cold then askFor (.release s.stop) else pure st

/-- A core that is on is stopped before it is woken again. -/
def stopFirst : SupM ℤ := do
  let s ← get
  if s.powered then apuKill else pure 0

/-- A return code of the PLM is 1 here when it is not a success. -/
def apuStart (entry : ℕ) : SupM ℤ := do
  let s ← get
  if s.ready = false then pure (-1)
  else if ← apuParked then do
    apuRelease entry
    pure 0
  else if (← stopFirst) ≠ 0 then pure (-2)
  else if ← wakeCore entry then do
    modify fun s => { s with stop := .none, powered := true }
    pure 0
  else pure 1

/-! ## Runs -/

def nbKill : SupM ℤ := do
  let s ← get
  if s.state ≠ .running then pure 0
  else do
    let rc ← apuKill
    whenDo (rc = 0) (modify fun s => { s with state := .killed })
    pure rc

/-- `apu_busy() && !apu_parked(NULL)`. -/
def coreBusy : SupM Bool := do
  let s ← get
  if s.powered then do
    let parked ← apuParked
    pure !parked
  else pure false

/-- The start of an image that was placed. -/
def startPlaced (maxRunMs entry placeMs : ℕ) : SupM (ℤ × ℕ) := do
  modify fun s => { s with
    entry := entry
    runs := s.runs + 1
    timeoutMs := if maxRunMs = 0 then NB_DEFAULT_TIMEOUT_MS else maxRunMs }
  let rc ← apuStart entry
  if rc ≠ 0 then do
    modify fun s => { s with state := .idle }
    pure (-4, placeMs)
  else do
    let t ← askFor .now
    modify fun s => { s with state := .running, runStartMs := t }
    pure (0, placeMs)

/-- Milliseconds from `t₀` to `t`, as a 32-bit number. -/
def since (t t₀ : ℕ) : ℕ := (t + 2 ^ 64 - t₀) % 2 ^ 32

/-- The placement of the staged image, and its start. -/
def placeStaged (maxRunMs : ℕ) : SupM (ℤ × ℕ) := do
  let t₀ ← askFor .now
  let s ← get
  let placed : Option (ℕ × Bool) ← askFor (.place s.stagedSize)
  match placed with
  | none => do
    modify fun s => { s with stagedSize := 0 }
    pure (-3, 0)
  | some (entry, _) => do
    let t ← askFor .now
    startPlaced maxRunMs entry (since t t₀)

/-- `nb_launch`: the return code and the time of the placement. -/
def nbLaunch (maxRunMs : ℕ) : SupM (ℤ × ℕ) := do
  let s ← get
  if s.ready = false then pure (-10, 0)
  else do
    let parked ← apuParked
    whenDo (!parked) (do let _ ← nbKill)
    if ← coreBusy then pure (-5, 0) else placeStaged maxRunMs

def coreView : SupM CoreView := do
  if ← apuParked then pure .parked
  else do
    let s ← get
    pure (if s.powered then .busy else .free)

def nbFillAck : SupM Ack := do
  let core ← coreView
  let s ← get
  let ack : Ack := { state := s.state, core, maxRunMs := s.timeoutMs, canStop := s.canStop, runs := s.runs }
  if s.runs ≠ 0 ∧ core = .busy then do
    let now ← askFor .now
    let run := if now > s.runStartMs then since now s.runStartMs else 0
    pure { ack with runMs := run, remainingMs := if run < s.timeoutMs then s.timeoutMs - run else 0 }
  else pure ack

/-- The end of an app that is past its limit, for a forced run. -/
def forceOut : SupM Ack := do
  modify fun s => { s with state := .running }
  let rc ← nbKill
  if rc = 0 then do
    let ack ← nbFillAck
    pure { ack with verdict := .ok }
  else do
    modify fun s => { s with state := .timeout }
    let ack ← nbFillAck
    pure { ack with verdict := .stuck }

def nbAdmit (cmd flags : ℕ) : SupM Ack := do
  let ack ← nbFillAck
  let s ← get
  if cmd ≠ NETBOOT_CMD_LOAD_RUN ∧ cmd ≠ NETBOOT_CMD_RERUN then pure { ack with verdict := .ok }
  else if s.ready = false then pure { ack with verdict := .reject }
  else if ack.core ≠ .busy then pure { ack with verdict := .ok }
  else if ack.remainingMs > 0 then
    pure { ack with verdict := .busy, retryAfterMs := (ack.remainingMs + 100) % 2 ^ 32 }
  else if flags &&& NETBOOT_F_FORCE = 0 then pure { ack with verdict := .overtime }
  else forceOut

/-- The end of a run that is past its limit. -/
def watchdogKill : SupM Unit := do
  let rc ← nbKill
  whenDo (rc ≠ 0) (modify fun s => { s with state := .timeout })

def watchdogTime : SupM Unit := do
  let now ← askFor .now
  let s ← get
  if s.state ≠ .running ∨ now < s.runStartMs ∨ now - s.runStartMs ≤ s.timeoutMs then pure () else watchdogKill

/-- The app has returned from `main` and is parked. -/
def runOver : SupM Bool := do
  let s ← get
  if s.state = .running ∨ s.state = .timeout then apuParked else pure false

def watchdog : SupM Unit := do
  if ← runOver then modify fun s => { s with state := .exited } else watchdogTime

/-! ## The server -/

def connReset : SupM Unit := modify fun s => { s with conn := {}, busy := false }

/-- How long the app has run, for a reply. -/
def runMs : SupM ℕ := do
  let s ← get
  if s.state = .running then do
    let now ← askFor .now
    pure (since now s.runStartMs)
  else pure 0

def reply (rc : ℤ) (rxMs placeMs : ℕ) : SupM Unit := do
  let run ← runMs
  modify fun s => { s with
    sent := s.sent ++ [.rep s.conn.req.cmd s.conn.acked
      ⟨rc, s.conn.payloadGot, rxMs, placeMs, s.entry, s.state, run, s.runs⟩]
    conn := {}
    busy := false }

def headerOk (r : NetbootReq) : Bool :=
  r.magic = NETBOOT_REQ_MAGIC && 1 ≤ r.version && r.version ≤ NETBOOT_VERSION &&
    !(r.cmd = NETBOOT_CMD_LOAD_RUN && (r.elfSize = 0 || r.elfSize > NB_STAGING_SIZE))

/-- How much of the payload in a packet is taken; `payload_got` never passes `elf_size`, so that the
room is a plain difference. -/
def Conn.takes (c : Conn) (src : List UInt8) : ℕ := min src.length (c.req.elfSize - c.payloadGot)

/-- The payload goes to the staging area, unless it is said to be larger than that. -/
def stagePayload (c : Conn) (src : List UInt8) : SupM Unit :=
  whenDo (c.req.elfSize ≤ NB_STAGING_SIZE) (askFor (.stage c.payloadGot (src.take (c.takes src))))

def recvPayload (src : List UInt8) : SupM Unit := do
  let s ← get
  if src ≠ [] ∧ s.conn.hdr.length = sizeofReq ∧ s.conn.req.cmd = NETBOOT_CMD_LOAD_RUN then do
    stagePayload s.conn src
    modify fun s => { s with conn := { s.conn with payloadGot := s.conn.payloadGot + s.conn.takes src } }
  else pure ()

/-- The loop body of `on_recv`. -/
def recvPbuf (src : List UInt8) : SupM Unit := do
  let s ← get
  let take := sizeofReq - s.conn.hdr.length
  set { s with conn := { s.conn with hdr := s.conn.hdr ++ src.take take } }
  recvPayload (src.drop take)

def Conn.complete (c : Conn) : Bool :=
  c.hdr.length = sizeofReq && (c.req.cmd ≠ NETBOOT_CMD_LOAD_RUN || c.payloadGot ≥ c.req.elfSize ||
    c.req.elfSize > NB_STAGING_SIZE)

/-- `on_recv` of a chain of packets. -/
def onRecv (chain : List (List UInt8)) : SupM Unit := do
  let s ← get
  whenDo (s.conn.tFirstMs = 0) (do
    let t ← askFor .now
    modify fun s => { s with conn := { s.conn with tFirstMs := t } })
  chain.forM recvPbuf
  modify fun s => { s with conn := { s.conn with ready := s.conn.ready || s.conn.complete } }

/-- `on_recv` without data: the peer has closed. -/
def onClosed : SupM Unit := do
  let s ← get
  if s.conn.ready then pure () else connReset

def sendAck (ack : Ack) : SupM Unit := modify fun s => { s with sent := s.sent ++ [.ack ack] }

def refuseServing : SupM Unit := do
  let ack ← nbFillAck
  sendAck { ack with verdict := .serving, retryAfterMs := 500 }

def onAccept : SupM Unit := do
  let s ← get
  if s.busy then refuseServing else set { s with conn := {}, busy := true }

def handleLoadRun (rxMs : ℕ) : SupM Unit := do
  let s ← get
  let digest ← askFor (.digest s.conn.req.elfSize)
  if digest ≠ s.conn.req.sha256 then reply (-2) rxMs 0
  else do
    modify fun s => { s with stagedSize := s.conn.req.elfSize, verified := s.verified ++ [digest] }
    let (rc, placeMs) ← nbLaunch s.conn.req.maxRunMs
    reply rc rxMs placeMs

def handleRerun : SupM Unit := do
  let s ← get
  if s.stagedSize ≠ 0 then do
    let (rc, placeMs) ← nbLaunch s.conn.req.maxRunMs
    reply rc 0 placeMs
  else reply (-3) 0 0

def handleStatus : SupM Unit := do
  let parked ← apuParked
  whenDo parked (do let _ ← askFor .exitRc)
  reply 0 0 0

/-- The ack of a header: an admission, or a refusal of what is malformed. -/
def admitAck : SupM Ack := do
  let s ← get
  if headerOk s.conn.req then nbAdmit s.conn.req.cmd s.conn.req.flags
  else do
    let ack ← nbFillAck
    pure { ack with verdict := .reject }

/-- `admit`. -/
def admitRequest : SupM Bool := do
  let ack ← admitAck
  sendAck ack
  modify fun s => { s with conn := { s.conn with acked := true } }
  if ack.verdict = .ok then do
    let t ← askFor .now
    modify fun s => { s with conn := { s.conn with tFirstMs := t } }
    pure true
  else do
    connReset
    pure false

/-- A header of version 2 is answered before anything else. -/
def admitted : SupM Bool := do
  let s ← get
  if s.conn.acked = false ∧ s.conn.hdr.length = sizeofReq ∧ s.conn.req.version ≥ 2 then admitRequest
    else pure true

def serve : SupM Unit := do
  let now ← askFor .now
  let s ← get
  if s.conn.req.cmd = NETBOOT_CMD_LOAD_RUN then handleLoadRun (since now s.conn.tFirstMs)
  else if s.conn.req.cmd = NETBOOT_CMD_RERUN then handleRerun
  else if s.conn.req.cmd = NETBOOT_CMD_KILL then do
    let rc ← nbKill
    reply rc 0 0
  else if s.conn.req.cmd = NETBOOT_CMD_STATUS then handleStatus
  else reply (-1) 0 0

def pollReady : SupM Unit := do
  let s ← get
  if s.conn.ready = false then pure ()
  else if headerOk s.conn.req then serve
  else reply (-1) 0 0

def serverPoll : SupM Unit := do
  let s ← get
  if s.busy = false then pure ()
  else if ← admitted then pollReady
  else pure ()

/-! ## The main loop -/

/-- What the main loop goes through: callbacks of the network, and the rest of a round. -/
inductive Event where
  | accept
  | recv (chain : List (List UInt8))
  | closed
  | err
  | round
  deriving DecidableEq, Repr

def Event.code : Event → SupM Unit
  | .accept => onAccept
  | .recv chain => onRecv chain
  | .closed => onClosed
  | .err => connReset
  | .round => do
    serverPoll
    watchdog

/-- The answer to an event, on the variables of the supervisor. -/
def supervise (e : Event) (s : Sup) : Ask Req Ans Sup := (e.code s) >>= fun r => pure r.2

end AieHlc.Netboot
