import AieHlc.Control.Ops

/-!
# The control chain of the shim row

`acr_plan_shim_row` plans a chain along the shim tiles of up to five columns. Tile `k` of it
consumes the id of `k` ones and forwards every id with bit `k` set; responses merge to the west on
accept-any slots. Forward and return operations go to lists of their own and share the port book.

* `acrShimRowId`: the id of tile `k`.
* `acrPlanShimRow`: the planner.
-/

namespace AieHlc.Control

open AieHlc.Prog

def RT_RES_SHIMROW_MAX_COLS : ℕ := 11 - 7 + 1

def ACR_MASK_EXACT : ℕ := 0x1F

def ACR_SHIMROW_SLOT_OWN : ℕ := 0
def ACR_SHIMROW_SLOT_FWD : ℕ := 1
def ACR_SHIMROW_MSEL_OWN : ℕ := 0
def ACR_SHIMROW_MSEL_FWD : ℕ := 1

/-- `acr_shim_row_id`. -/
def acrShimRowId (k : ℕ) : ℕ := (1 <<< k) - 1

/-- The master of the own port, or of the next tile. -/
def shimRowMaster (c : ℕ) (mport : AcrPort) (msel : ℕ) : PlanM Unit := do
  acrBookPort c 0 mport 0 true
  acrEmitOp { kind := .masterEn, col := c, row := 0, mport, arbiter := ACR_ARB_CTRL, mselen := 1
    <<< msel, keepHeader := 1 }

/-- `acr_shim_row_fwd_tile`. -/
def acrShimRowFwdTile (c k : ℕ) (hasEast : Bool) : PlanM Unit := do
  acrBookPort c 0 .west 0 false
  acrEmitOp (slotOp c 0 .west ACR_SHIMROW_SLOT_OWN (acrShimRowId k) ACR_MASK_EXACT
    ACR_SHIMROW_MSEL_OWN ACR_ARB_CTRL)
  when hasEast
    (acrEmitOp (slotOp c 0 .west ACR_SHIMROW_SLOT_FWD (1 <<< k) (1 <<< k) ACR_SHIMROW_MSEL_FWD ACR_ARB_CTRL))
  acrEmitOp (slaveEnOp c 0 .west 0 0)
  shimRowMaster c .ctrl ACR_SHIMROW_MSEL_OWN
  when hasEast (shimRowMaster c .east ACR_SHIMROW_MSEL_FWD)

def acrShimRowRetTile (c : ℕ) (hasEast : Bool) : PlanM Unit := do
  acrEmitRetSlot c 0 .ctrl ACR_SLOT_RET_LOCAL ACR_MSEL_RET_LOCAL
  when hasEast (acrEmitRetSlot c 0 .east ACR_SLOT_RET_TRANSIT ACR_MSEL_RET_TRANSIT)
  acrEmitMaster c 0 .west ((1 <<< ACR_MSEL_RET_LOCAL) ||| (1 <<< ACR_MSEL_RET_TRANSIT)) ACR_ARB_RET

/-- The two operation lists and the port book. -/
structure ShimRowPlan where
  fwd : List AcrOp
  ret : List AcrOp
  book : AcrPortbook

def onFwd (m : PlanM Unit) : EStateM AcrRc ShimRowPlan Unit := fun s =>
  match m ⟨⟨0, []⟩, s.fwd, s.book⟩ with
  | .ok u p => .ok u { s with fwd := p.ops, book := p.book }
  | .error e p => .error e { s with fwd := p.ops, book := p.book }

def onRet (m : PlanM Unit) : EStateM AcrRc ShimRowPlan Unit := fun s =>
  match m ⟨⟨0, []⟩, s.ret, s.book⟩ with
  | .ok u p => .ok u { s with ret := p.ops, book := p.book }
  | .error e p => .error e { s with ret := p.ops, book := p.book }

/-- `acr_plan_shim_row`. -/
def acrPlanShimRow (colLo colHi : ℕ) : EStateM AcrRc ShimRowPlan Unit :=
  if colHi < colLo ∨ colHi ≥ 64 ∨ colHi - colLo + 1 > RT_RES_SHIMROW_MAX_COLS then throw .errBounds
  else (cols colLo colHi).forM fun c => do
    onFwd (acrShimRowFwdTile c (c - colLo) (c < colHi))
    onRet (acrShimRowRetTile c (c < colHi))

def planShimRow (colLo colHi : ℕ) : Except AcrRc (List AcrOp) :=
  match acrPlanShimRow colLo colHi ⟨[], [], ⟨fun _ _ => 0, fun _ _ => 0⟩⟩ with
  | .ok _ s => .ok (s.fwd ++ s.ret)
  | .error e _ => .error e

end AieHlc.Control
