import AieHlc.Prog.Emit
import Mathlib.Tactic.Common
import Mathlib.Data.Int.Notation

/-!
# The row planner of the control plane

Model of `aie_runtime_control_plan.c`. The planner turns requests "connect row
`row`, columns `col_lo..col_hi`" into stream-switch operations: a packet chain
east along the row, a return chain west, and circuit hops up and down the shared
spine column below it. Every function appends to an operation list, books ports
and returns an error code; `PlanM` is that discipline.

`planRows` is the loop of `rt_ctrl_plan_add_rows`: rows in any order, the largest
one flagged as the top, each with a fresh operation list.
-/

namespace AieHlc.Control

open AieHlc.Prog

def ACR_MAX_ROWS : ℕ := 16
def ACR_MAX_OPS : ℕ := 256
def ACR_NUM_SLOTS : ℕ := 4
def ACR_MAX_ROW_IDX : ℕ := 3

def ACR_CLASS_ALL_BUT_LAST : ℕ := 0
def ACR_CLASS_WHOLE_ROW : ℕ := 2

def ACR_SLOT_CONSUME : ℕ := 0
def ACR_SLOT_BCAST : ℕ := 1
def ACR_SLOT_TRANSIT_N : ℕ := 2
def ACR_MSEL_CONSUME : ℕ := 0
def ACR_MSEL_BCAST : ℕ := 1
def ACR_MSEL_TRANSIT_N : ℕ := 2
def ACR_MSEL_TRANSIT_E : ℕ := 3
def ACR_ARB_CTRL : ℕ := 0

def ACR_SLOT_RET_LOCAL : ℕ := 0
def ACR_SLOT_RET_TRANSIT : ℕ := 1
def ACR_SLOT_RET_NORTH : ℕ := 2
def ACR_MSEL_RET_LOCAL : ℕ := 0
def ACR_MSEL_RET_TRANSIT : ℕ := 1
def ACR_MSEL_RET_NORTH : ℕ := 2
def ACR_ARB_RET : ℕ := 1

def ACR_ID_BCAST : ℕ := 0x10
def ACR_MASK_BCAST : ℕ := 0x10
def ACR_ID_TRANSIT : ℕ := 0
def ACR_MASK_CLASS : ℕ := 0x10
def ACR_MASK_CONSUME : ℕ := 0x17

def ACR_MSELEN_CTRL : ℕ := (1 <<< ACR_MSEL_CONSUME) ||| (1 <<< ACR_MSEL_BCAST)
def ACR_MSELEN_EAST : ℕ :=
  (1 <<< ACR_MSEL_CONSUME) ||| (1 <<< ACR_MSEL_BCAST) ||| (1 <<< ACR_MSEL_TRANSIT_E)
def ACR_MSELEN_NORTH : ℕ := (1 <<< ACR_MSEL_BCAST) ||| (1 <<< ACR_MSEL_TRANSIT_N)

/-- Direction tags of the switch ports (`acr_port`). -/
inductive AcrPort where
  | west | east | north | south | ctrl
  deriving DecidableEq, Repr

def AcrPort.num : AcrPort → ℕ
  | .west => 0 | .east => 1 | .north => 2 | .south => 3 | .ctrl => 4

def AcrPort.all : List AcrPort := [.west, .east, .north, .south, .ctrl]

inductive AcrOpKind where
  | slot | slaveEn | masterEn | cct
  deriving DecidableEq, Repr

/-- One emitted stream-switch operation (`acr_op`); unset fields are zero. -/
structure AcrOp where
  kind : AcrOpKind
  col : ℕ
  row : ℕ
  sport : AcrPort := .west
  sidx : ℕ := 0
  mport : AcrPort := .west
  midx : ℕ := 0
  slot : ℕ := 0
  pktId : ℕ := 0
  mask : ℕ := 0
  msel : ℕ := 0
  arbiter : ℕ := 0
  mselen : ℕ := 0
  keepHeader : ℕ := 0
  isRet : ℕ := 0
  deriving DecidableEq, Repr

inductive AcrRc where
  | errPortConflict | errSlots | errBounds | errTiletype
  deriving DecidableEq, Repr

/-- Used-port bitmaps, by row and column (`acr_portbook`). -/
structure AcrPortbook where
  masterUsed : ℕ → ℕ → ℕ
  slaveUsed : ℕ → ℕ → ℕ

/-- The shared spine: its highest pass-through row and the rows configured so far,
in the order they were added (`acr_state`). -/
structure AcrState where
  spineTop : ℕ
  rows : List ℕ

/-- What a planner call reads and writes: spine, operation list, port book. -/
structure Planner where
  spine : AcrState
  ops : List AcrOp
  book : AcrPortbook

/-- A planner function: `ACR_OK` with a result, or an error code; the state keeps
what was done before the error, as in the source. -/
abbrev PlanM := EStateM AcrRc Planner

/-- `acr_book_port`: book port `idx` of direction `p`, bit `p * 3 + idx`. -/
def acrBookPort (col row : ℕ) (p : AcrPort) (idx : ℕ) (isMaster : Bool) : PlanM Unit :=
  if row > ACR_MAX_ROWS ∨ col ≥ 64 ∨ idx ≥ 3 then throw .errBounds
  else do
    let s ← get
    let bit := 1 <<< (p.num * 3 + idx)
    let used := if isMaster then s.book.masterUsed else s.book.slaveUsed
    if used row col &&& bit ≠ 0 then throw .errPortConflict
    else
      let used' := Function.update used row (Function.update (used row) col (used row col ||| bit))
      set { s with book := if isMaster then { s.book with masterUsed := used' }
                           else { s.book with slaveUsed := used' } }

/-- `acr_emit_op`: append one operation, guarding the fixed capacity. -/
def acrEmitOp (op : AcrOp) : PlanM Unit := do
  let s ← get
  if s.ops.length ≥ ACR_MAX_OPS then throw .errBounds
  else set { s with ops := s.ops ++ [op] }

variable (c row : ℕ)

variable (sport : AcrPort)

/-- The operation `acr_emit_slot` appends. -/
def slotOp (slot pkt mask msel arb : ℕ) : AcrOp :=
  { kind := .slot, col := c, row, sport, slot, pktId := pkt, mask, msel, arbiter := arb,
    isRet := if arb = ACR_ARB_RET then 1 else 0 }

def acrEmitSlot (slot pkt mask msel arb : ℕ) : PlanM Unit :=
  acrEmitOp (slotOp c row sport slot pkt mask msel arb)

/-- The operation `acr_emit_master` appends. -/
def masterOp (mport : AcrPort) (mselen arb : ℕ) : AcrOp :=
  { kind := .masterEn, col := c, row, mport, arbiter := arb, mselen, keepHeader := 1,
    isRet := if arb = ACR_ARB_RET then 1 else 0 }

/-- `acr_emit_master`: book the master port, then enable it. -/
def acrEmitMaster (mport : AcrPort) (mselen arb : ℕ) : PlanM Unit := do
  acrBookPort c row mport 0 true
  acrEmitOp (masterOp c row mport mselen arb)

/-- The slave-enable operation of the forward and of the return chain. -/
def slaveEnOp (pktId isRet : ℕ) : AcrOp :=
  { kind := .slaveEn, col := c, row, sport, pktId, isRet }

/-- The circuit hop from slave `src` to master `dst`. -/
def cctOp (src dst : AcrPort) (isRet : ℕ) : AcrOp :=
  { kind := .cct, col := c, row, sport := src, mport := dst, isRet }

/-- Whether tile `c` climbs the spine: a non-top head on the shim column. A
negative `shimCol` is a plain chain without a spine. -/
def isSpineHead (shimCol : ℤ) (colLo : ℕ) (isTop : Bool) (c : ℕ) : Bool :=
  0 ≤ shimCol && (c : ℤ) = shimCol % 256 && c = colLo && !isTop

/-- The body of the loop of `acr_plan_chain_ex`. -/
def acrPlanChainTile (row rowidx colLo targetLo colHi ctrlId : ℕ) (shimCol : ℤ)
    (headIngress : AcrPort) (isTop : Bool) (c : ℕ) : PlanM Unit := do
  let sport := if c = colLo then headIngress else .west
  let consumeId := (ACR_CLASS_ALL_BUT_LAST <<< 2) ||| rowidx
  acrBookPort c row sport 0 false
  acrEmitSlot c row sport ACR_SLOT_CONSUME consumeId ACR_MASK_CONSUME ACR_MSEL_CONSUME ACR_ARB_CTRL
  acrEmitSlot c row sport ACR_SLOT_BCAST ACR_ID_BCAST ACR_MASK_BCAST ACR_MSEL_BCAST ACR_ARB_CTRL
  when (isSpineHead shimCol colLo isTop c)
    (acrEmitSlot c row sport ACR_SLOT_TRANSIT_N ACR_ID_TRANSIT ACR_MASK_CLASS ACR_MSEL_TRANSIT_N ACR_ARB_CTRL)
  acrEmitOp (slaveEnOp c row sport ctrlId 0)
  when (targetLo ≤ c) (acrEmitMaster c row .ctrl ACR_MSELEN_CTRL ACR_ARB_CTRL)
  when (c ≠ colHi) (acrEmitMaster c row .east ACR_MSELEN_EAST ACR_ARB_CTRL)
  when (isSpineHead shimCol colLo isTop c) (acrEmitMaster c row .north ACR_MSELEN_NORTH ACR_ARB_CTRL)

/-- The columns `lo..hi` of a chain, west to east. -/
def cols (lo hi : ℕ) : List ℕ := List.range' lo (hi + 1 - lo)

/-- `acr_plan_chain_ex`: the forward chain of a row. -/
def acrPlanChainEx (row rowidx colLo targetLo colHi ctrlId : ℕ) (shimCol : ℤ)
    (headIngress : AcrPort) (isTop : Bool) : PlanM Unit :=
  if colHi < colLo ∨ colHi ≥ 64 ∨ targetLo < colLo ∨ targetLo > colHi then throw .errBounds
  else if rowidx > ACR_MAX_ROW_IDX then throw .errBounds
  else if ACR_NUM_SLOTS < 4 then throw .errSlots
  else (cols colLo colHi).forM
    (acrPlanChainTile row rowidx colLo targetLo colHi ctrlId shimCol headIngress isTop)

/-- `acr_emit_ret_slot`: an accept-any slot on a return slave, and its enable. -/
def acrEmitRetSlot (slot msel : ℕ) : PlanM Unit := do
  acrBookPort c row sport 0 false
  acrEmitSlot c row sport slot 0 0 msel ACR_ARB_RET
  acrEmitOp (slaveEnOp c row sport 0 1)

/-- Select bits of the return master of a head: `{local?, transit?, north?}`. -/
def retHeadMselen (hasLocal hasTransit isTop : Bool) : ℕ :=
  (if hasLocal then 1 <<< ACR_MSEL_RET_LOCAL else 0) |||
    (if hasTransit then 1 <<< ACR_MSEL_RET_TRANSIT else 0) |||
    (if isTop then 0 else 1 <<< ACR_MSEL_RET_NORTH)

/-- Select bits of the return master of any other tile; the transit bit is always set. -/
def retMidMselen (hasLocal : Bool) : ℕ :=
  (if hasLocal then 1 <<< ACR_MSEL_RET_LOCAL else 0) ||| (1 <<< ACR_MSEL_RET_TRANSIT)

/-- The body of the loop of `acr_plan_return_chain_ex`. -/
def acrPlanReturnTile (row colLo targetLo colHi : ℕ) (isTop : Bool) (c : ℕ) : PlanM Unit := do
  when (targetLo ≤ c) (acrEmitRetSlot c row .ctrl ACR_SLOT_RET_LOCAL ACR_MSEL_RET_LOCAL)
  when (c < colHi) (acrEmitRetSlot c row .east ACR_SLOT_RET_TRANSIT ACR_MSEL_RET_TRANSIT)
  if c = colLo then do
    when (isTop = false) (acrEmitRetSlot c row .north ACR_SLOT_RET_NORTH ACR_MSEL_RET_NORTH)
    acrEmitMaster c row .south (retHeadMselen (targetLo ≤ c) (c < colHi) isTop) ACR_ARB_RET
  else acrEmitMaster c row .west (retMidMselen (targetLo ≤ c)) ACR_ARB_RET

/-- `acr_plan_return_chain_ex`: the return chain of a row. -/
def acrPlanReturnChainEx (row colLo targetLo colHi : ℕ) (isTop : Bool) : PlanM Unit :=
  if colHi < colLo ∨ colHi ≥ 64 ∨ targetLo < colLo ∨ targetLo > colHi then throw .errBounds
  else (cols colLo colHi).forM (acrPlanReturnTile row colLo targetLo colHi isTop)

/-- `acr_row_is_head`. -/
def acrRowIsHead (s : AcrState) (row : ℕ) : Bool := decide (row ∈ s.rows)

/-- One pass-through row of the spine: the hop up and the hop down, unless the row
is a head already. -/
def acrPlanHop (shimCol : ℕ) (s : AcrState) (r : ℕ) : PlanM Unit :=
  if acrRowIsHead s r then pure ()
  else do
    acrEmitOp (cctOp shimCol r .south .north 0)
    acrEmitOp (cctOp shimCol r .north .south 1)

/-- `acr_plan_row_add`: extend the spine to the row below, then plan both chains.
A configured row is left alone. -/
def acrPlanRowAdd (shimCol row colLo colHi ctrlId : ℕ) (isTop : Bool) : PlanM Unit :=
  if row = 0 ∨ shimCol ≥ 64 then throw .errBounds
  else if colLo < shimCol then throw .errBounds
  else do
    let s := (← get).spine
    if acrRowIsHead s row then pure ()
    else if s.rows.length ≥ ACR_MAX_ROWS then throw .errBounds
    else if s.rows.length > ACR_MAX_ROW_IDX then throw .errBounds
    else do
      when (row - 1 > s.spineTop) do
        (List.range' (s.spineTop + 1) (row - 1 - s.spineTop)).forM (acrPlanHop shimCol s)
        modify fun p => { p with spine := { p.spine with spineTop := row - 1 } }
      acrPlanChainEx row s.rows.length shimCol colLo colHi ctrlId shimCol .south isTop
      acrPlanReturnChainEx row shimCol colLo colHi isTop
      modify fun p => { p with spine := { p.spine with rows := p.spine.rows ++ [row] } }

/-- A requested chain (`__Runtime_CtrlRowChain`). -/
structure CtrlRowChain where
  row : ℕ
  colLo : ℕ
  colHi : ℕ
  deriving DecidableEq, Repr

/-- The largest requested row (there is none in an empty request). -/
def topRow : List CtrlRowChain → ℕ
  | [] => 0
  | x :: xs => xs.foldl (fun t y => if y.row > t then y.row else t) x.row

def Planner.init : Planner := ⟨⟨0, []⟩, [], ⟨fun _ _ => 0, fun _ _ => 0⟩⟩

/-- One `rt_ctrl_plan_add_row`: plan with a fresh operation list; the operations are
handed to the emit layer, here appended to `done`. -/
def planRow (shimCol ctrlId top : ℕ) (x : CtrlRowChain) (done : List AcrOp) (p : Planner) :
    Except AcrRc (List AcrOp × Planner) :=
  match acrPlanRowAdd shimCol x.row x.colLo x.colHi ctrlId (x.row = top) { p with ops := [] } with
  | .ok _ p' => .ok (done ++ p'.ops, p')
  | .error e _ => .error e

/-- The loop of `rt_ctrl_plan_add_rows`. -/
def planRowsFrom (shimCol ctrlId top : ℕ) : List CtrlRowChain → List AcrOp → Planner →
    Except AcrRc (List AcrOp × Planner)
  | [], done, p => .ok (done, p)
  | x :: xs, done, p =>
    match planRow shimCol ctrlId top x done p with
    | .ok (done', p') => planRowsFrom shimCol ctrlId top xs done' p'
    | .error e => .error e

/-- Every operation emitted for a list of rows, or the first error. -/
def planRows (shimCol ctrlId : ℕ) (rows : List CtrlRowChain) : Except AcrRc (List AcrOp) :=
  (planRowsFrom shimCol ctrlId (topRow rows) rows [] Planner.init).map Prod.fst

end AieHlc.Control
