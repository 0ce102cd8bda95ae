import AieHlc.Control.Plan

/-!
# What a planner call emits

Each planner function, when it succeeds, appends a list of operations that
depends on its arguments only. `acrPlanRowAdd_ok` is the whole of what a
successful `acr_plan_row_add` does; nothing below it is unfolded again.

* `chainTileOps`, `returnTileOps`, `hopOps`: the operations of one tile.
* `rowOps`, `AcrState.add`: what adding a row emits and does to the spine.
* `planRow_ok`, `planRowsFrom_induct`: one round of the request loop, and the rule
  that carries an invariant through all of it.
-/

namespace AieHlc.Control

open List AieHlc.Prog

variable {m : PlanM Unit} {w : List AcrOp} {ctrlId top : ℕ}

/-- The forward operations of tile `c` of a chain. -/
def chainTileOps (row rowidx colLo targetLo colHi ctrlId : ℕ) (shimCol : ℤ)
    (headIngress : AcrPort) (isTop : Bool) (c : ℕ) : List AcrOp :=
  let sport := if c = colLo then headIngress else .west
  let head := isSpineHead shimCol colLo isTop c
  [slotOp c row sport ACR_SLOT_CONSUME ((ACR_CLASS_ALL_BUT_LAST <<< 2) ||| rowidx) ACR_MASK_CONSUME
      ACR_MSEL_CONSUME ACR_ARB_CTRL,
    slotOp c row sport ACR_SLOT_BCAST ACR_ID_BCAST ACR_MASK_BCAST ACR_MSEL_BCAST ACR_ARB_CTRL] ++
  (if head then [slotOp c row sport ACR_SLOT_TRANSIT_N ACR_ID_TRANSIT ACR_MASK_CLASS ACR_MSEL_TRANSIT_N
      ACR_ARB_CTRL] else []) ++
  [slaveEnOp c row sport ctrlId 0] ++
  (if targetLo ≤ c then [masterOp c row .ctrl ACR_MSELEN_CTRL ACR_ARB_CTRL] else []) ++
  (if c ≠ colHi then [masterOp c row .east ACR_MSELEN_EAST ACR_ARB_CTRL] else []) ++
  (if head then [masterOp c row .north ACR_MSELEN_NORTH ACR_ARB_CTRL] else [])

def retSlotOps (c row : ℕ) (sport : AcrPort) (slot msel : ℕ) : List AcrOp :=
  [slotOp c row sport slot 0 0 msel ACR_ARB_RET, slaveEnOp c row sport 0 1]

variable (row colLo targetLo colHi : ℕ)

/-- The return operations of tile `c` of a chain. -/
def returnTileOps (isTop : Bool) (c : ℕ) : List AcrOp :=
  (if targetLo ≤ c then retSlotOps c row .ctrl ACR_SLOT_RET_LOCAL ACR_MSEL_RET_LOCAL else []) ++
  (if c < colHi then retSlotOps c row .east ACR_SLOT_RET_TRANSIT ACR_MSEL_RET_TRANSIT else []) ++
  if c = colLo then
    (if isTop = false then retSlotOps c row .north ACR_SLOT_RET_NORTH ACR_MSEL_RET_NORTH else []) ++
    [masterOp c row .south (retHeadMselen (targetLo ≤ c) (c < colHi) isTop) ACR_ARB_RET]
  else [masterOp c row .west (retMidMselen (targetLo ≤ c)) ACR_ARB_RET]

/-- The hops of one pass-through row; none on a row that is a head already. -/
def hopOps (shimCol : ℕ) (s : AcrState) (r : ℕ) : List AcrOp :=
  if acrRowIsHead s r then []
  else [cctOp shimCol r .south .north 0, cctOp shimCol r .north .south 1]

variable {s s' : Planner}

theorem get_bind_ok {β : Type} {f : Planner → PlanM β} {b : β} :
    (get >>= f) s = .ok b s' ↔ f s s = .ok b s' := by
  rw [bind_ok]
  constructor
  · intro ⟨a, t, hget, h⟩
    obtain ⟨rfl, rfl⟩ := EStateM.Result.ok.inj hget
    exact h
  · intro h
    exact ⟨s, s, rfl, h⟩

theorem modify_ok {g : Planner → Planner} {u : PUnit} :
    (modify g : PlanM PUnit) s = .ok u s' ↔ s' = g s := by
  change EStateM.Result.ok PUnit.unit (g s) = .ok u s' ↔ s' = g s
  rw [EStateM.Result.ok.injEq]
  constructor
  · intro ⟨_, h⟩
    exact h.symm
  · intro h
    exact ⟨rfl, h.symm⟩

variable {u : Unit}

/-- Booking a port writes nothing. -/
theorem acrBookPort_ok {col row idx : ℕ} {p : AcrPort} {isMaster : Bool}
    (h : acrBookPort col row p idx isMaster s = .ok u s') : s'.ops = s.ops ∧ s'.spine = s.spine := by
  unfold acrBookPort at h
  split at h
  · cases h
  · rw [get_bind_ok] at h
    by_cases hb : (if isMaster then s.book.masterUsed else s.book.slaveUsed) row col
        &&& 1 <<< (p.num * 3 + idx) ≠ 0
    · rw [if_pos hb] at h; cases h
    · rw [if_neg hb] at h; cases h; exact ⟨rfl, rfl⟩

theorem acrEmitOp_ok {op : AcrOp} (h : acrEmitOp op s = .ok u s') :
    s'.ops = s.ops ++ [op] ∧ s'.spine = s.spine := by
  unfold acrEmitOp at h
  rw [get_bind_ok] at h
  split at h
  · cases h
  · cases h; exact ⟨rfl, rfl⟩

/-- What a planner step that succeeds does, beside booking ports: it appends `w`
and leaves the spine alone. -/
structure Plans (m : PlanM Unit) (w : List AcrOp) : Prop where
  emits : Emits Planner.ops m w
  keeps : Keeps Planner.spine m

theorem Plans.bind {m' : PlanM Unit} {w' : List AcrOp} (h : Plans m w) (h' : Plans m' w') :
    Plans (m >>= fun _ => m') (w ++ w') :=
  ⟨h.emits.bind fun _ => h'.emits, h.keeps.bind fun _ => h'.keeps⟩

theorem Plans.when {c : Prop} [Decidable c] (h : Plans m w) : Plans (when c m) (if c then w else []) :=
  ⟨h.emits.when, h.keeps.when⟩

theorem Plans.ite {c : Prop} [Decidable c] {m' : PlanM Unit} {w' : List AcrOp} (h : Plans m w)
    (h' : Plans m' w') :
    Plans (if c then m else m') (if c then w else w') :=
  ⟨Emits.ite (fun _ => h.emits) fun _ => h'.emits, h.keeps.ite h'.keeps⟩

theorem Plans.forM {body : ℕ → PlanM Unit} {w : ℕ → List AcrOp} (h : ∀ x, Plans (body x) (w x))
    (l : List ℕ) : Plans (l.forM body) (l.flatMap w) :=
  ⟨Emits.forM (fun x => (h x).emits) l, Keeps.forM (fun x => (h x).keeps) l⟩

theorem Plans.pure : Plans (pure ()) [] := ⟨Emits.pure _, Keeps.pure _⟩

theorem acrBookPort_plans (col row : ℕ) (p : AcrPort) (idx : ℕ) (isMaster : Bool) :
    Plans (acrBookPort col row p idx isMaster) [] :=
  ⟨fun _ _ _ h => by rw [(acrBookPort_ok h).1, append_nil], fun _ _ _ h => (acrBookPort_ok h).2⟩

theorem acrEmitOp_plans (op : AcrOp) : Plans (acrEmitOp op) [op] :=
  ⟨fun _ _ _ h => (acrEmitOp_ok h).1, fun _ _ _ h => (acrEmitOp_ok h).2⟩

theorem Plans.book (h : Plans m w) (col row : ℕ) (p : AcrPort) (idx : ℕ) (isMaster : Bool) :
    Plans (acrBookPort col row p idx isMaster >>= fun _ => m) w :=
  (acrBookPort_plans col row p idx isMaster).bind h

theorem Plans.op (h : Plans m w) (op : AcrOp) : Plans (acrEmitOp op >>= fun _ => m) (op :: w) :=
  (acrEmitOp_plans op).bind h

theorem acrEmitMaster_plans (c row : ℕ) (mport : AcrPort) (mselen arb : ℕ) :
    Plans (acrEmitMaster c row mport mselen arb) [masterOp c row mport mselen arb] :=
  (acrEmitOp_plans _).book c row mport 0 true

theorem acrEmitRetSlot_plans (c row : ℕ) (sport : AcrPort) (slot msel : ℕ) :
    Plans (acrEmitRetSlot c row sport slot msel) (retSlotOps c row sport slot msel) :=
  ((acrEmitOp_plans _).op _).book c row sport 0 false

theorem acrPlanChainTile_plans (row rowidx colLo targetLo colHi ctrlId : ℕ) (shimCol : ℤ)
    (headIngress : AcrPort) (isTop : Bool) (c : ℕ) :
    Plans (acrPlanChainTile row rowidx colLo targetLo colHi ctrlId shimCol headIngress isTop c)
      (chainTileOps row rowidx colLo targetLo colHi ctrlId shimCol headIngress isTop c) := by
  unfold acrPlanChainTile chainTileOps
  simp only [append_assoc, cons_append, nil_append]
  refine Plans.book (Plans.op (Plans.op (Plans.bind (acrEmitOp_plans _).when (Plans.op ?_ _)) _) _) ..
  refine (acrEmitMaster_plans c row .ctrl ACR_MSELEN_CTRL ACR_ARB_CTRL).when.bind ?_
  refine (acrEmitMaster_plans c row .east ACR_MSELEN_EAST ACR_ARB_CTRL).when.bind ?_
  exact (acrEmitMaster_plans c row .north ACR_MSELEN_NORTH ACR_ARB_CTRL).when

theorem acrPlanReturnTile_plans (isTop : Bool) (c : ℕ) :
    Plans (acrPlanReturnTile row colLo targetLo colHi isTop c)
      (returnTileOps row colLo targetLo colHi isTop c) := by
  unfold acrPlanReturnTile returnTileOps
  rw [append_assoc]
  refine (acrEmitRetSlot_plans c row .ctrl ACR_SLOT_RET_LOCAL ACR_MSEL_RET_LOCAL).when.bind ?_
  refine (acrEmitRetSlot_plans c row .east ACR_SLOT_RET_TRANSIT ACR_MSEL_RET_TRANSIT).when.bind ?_
  refine Plans.ite ?_ (acrEmitMaster_plans ..)
  exact (acrEmitRetSlot_plans c row .north ACR_SLOT_RET_NORTH ACR_MSEL_RET_NORTH).when.bind
    (acrEmitMaster_plans ..)

theorem acrPlanHop_plans (shimCol : ℕ) (s : AcrState) (r : ℕ) :
    Plans (acrPlanHop shimCol s r) (hopOps shimCol s r) :=
  Plans.ite Plans.pure ((acrEmitOp_plans _).bind (acrEmitOp_plans _))

/-- A chain is planned tile by tile, in the order of its columns. -/
theorem acrPlanChainEx_ok {row rowidx colLo targetLo colHi : ℕ} {shimCol : ℤ}
    {headIngress : AcrPort} {isTop : Bool}
    (h : acrPlanChainEx row rowidx colLo targetLo colHi ctrlId shimCol headIngress isTop s = .ok u s') :
    (colLo ≤ targetLo ∧ targetLo ≤ colHi ∧ colHi < 64) ∧
      s'.ops = s.ops ++ (cols colLo colHi).flatMap
        (chainTileOps row rowidx colLo targetLo colHi ctrlId shimCol headIngress isTop) ∧
      s'.spine = s.spine := by
  unfold acrPlanChainEx at h
  split at h
  · cases h
  split at h
  · cases h
  split at h
  · cases h
  have hp := Plans.forM
    (acrPlanChainTile_plans row rowidx colLo targetLo colHi ctrlId shimCol headIngress isTop)
      (cols colLo colHi)
  exact ⟨by omega, hp.emits _ _ _ h, hp.keeps _ _ _ h⟩

theorem acrPlanReturnChainEx_ok {row colLo targetLo colHi : ℕ} {isTop : Bool}
    (h : acrPlanReturnChainEx row colLo targetLo colHi isTop s = .ok u s') :
    s'.ops = s.ops ++ (cols colLo colHi).flatMap (returnTileOps row colLo targetLo colHi isTop) ∧
      s'.spine = s.spine := by
  unfold acrPlanReturnChainEx at h
  split at h
  · cases h
  have hp := Plans.forM (acrPlanReturnTile_plans row colLo targetLo colHi isTop) (cols colLo colHi)
  exact ⟨hp.emits _ _ _ h, hp.keeps _ _ _ h⟩

/-- The rows of the spine that adding `row` extends it through. -/
def newHops (s : AcrState) (row : ℕ) : List ℕ := range' (s.spineTop + 1) (row - 1 - s.spineTop)

/-- The spine is extended only above its top. -/
theorem spine_extend_ok {shimCol row : ℕ}
    (h : when (row - 1 > s.spine.spineTop) (do
        (range' (s.spine.spineTop + 1) (row - 1 - s.spine.spineTop)).forM (acrPlanHop shimCol s.spine)
        modify fun p => { p with spine := { p.spine with spineTop := row - 1 } }) s = .ok u s') :
    s'.ops = s.ops ++ (newHops s.spine row).flatMap (hopOps shimCol s.spine) ∧
      s'.spine = ⟨max s.spine.spineTop (row - 1), s.spine.rows⟩ := by
  unfold when at h
  split at h
  · rename_i hlt
    obtain ⟨_, s1, h1, h2⟩ := bind_ok.1 h
    have hp := Plans.forM (acrPlanHop_plans shimCol s.spine)
      (range' (s.spine.spineTop + 1) (row - 1 - s.spine.spineTop))
    have hs1 := hp.keeps _ _ _ h1
    have hemit := hp.emits _ _ _ h1
    rw [modify_ok.1 h2]
    refine ⟨hemit, ?_⟩
    simp only [hs1, AcrState.mk.injEq, and_true]
    omega
  · rename_i hge
    cases h
    have h0 : row - 1 - s.spine.spineTop = 0 := by omega
    refine ⟨by simp [newHops, h0], ?_⟩
    have hm : max s.spine.spineTop (row - 1) = s.spine.spineTop := by omega
    rw [hm]

/-- The spine after a request for `row`. -/
def AcrState.add (s : AcrState) (row : ℕ) : AcrState :=
  if row ∈ s.rows then s else ⟨max s.spineTop (row - 1), s.rows ++ [row]⟩

def rowOps (shimCol ctrlId top : ℕ) (s : AcrState) (x : CtrlRowChain) : List AcrOp :=
  if x.row ∈ s.rows then []
  else (newHops s x.row).flatMap (hopOps shimCol s) ++
    (cols shimCol x.colHi).flatMap
      (chainTileOps x.row s.rows.length shimCol x.colLo x.colHi ctrlId shimCol .south (x.row = top)) ++
    (cols shimCol x.colHi).flatMap (returnTileOps x.row shimCol x.colLo x.colHi (x.row = top))

/-- **What a successful `acr_plan_row_add` does.** -/
theorem acrPlanRowAdd_ok {shimCol : ℕ} {x : CtrlRowChain}
    (h : acrPlanRowAdd shimCol x.row x.colLo x.colHi ctrlId (x.row = top) s = .ok u s') :
    (x.row ≠ 0 ∧ shimCol ≤ x.colLo) ∧
      (x.row ∉ s.spine.rows → x.colLo ≤ x.colHi ∧ shimCol < 64 ∧ s.spine.rows.length ≤ ACR_MAX_ROW_IDX) ∧
      s'.ops = s.ops ++ rowOps shimCol ctrlId top s.spine x ∧ s'.spine = s.spine.add x.row := by
  unfold acrPlanRowAdd at h
  split at h
  · cases h
  split at h
  · cases h
  rename_i hrow hlo
  rw [get_bind_ok] at h
  refine ⟨by omega, ?_⟩
  unfold rowOps AcrState.add
  by_cases hx : x.row ∈ s.spine.rows
  · rw [if_pos (by simpa [acrRowIsHead] using hx)] at h
    cases h
    exact ⟨fun hn => absurd hx hn, by simp [hx], by simp [hx]⟩
  · rw [if_neg (by simpa [acrRowIsHead] using hx)] at h
    split at h
    · cases h
    split at h
    · cases h
    rename_i hlen
    obtain ⟨_, s1, h1, h⟩ := bind_ok.1 h
    obtain ⟨_, s2, h2, h⟩ := bind_ok.1 h
    obtain ⟨_, s3, h3, h4⟩ := bind_ok.1 h
    obtain ⟨hops1, hsp1⟩ := spine_extend_ok h1
    obtain ⟨hb, hops2, hsp2⟩ := acrPlanChainEx_ok h2
    obtain ⟨hops3, hsp3⟩ := acrPlanReturnChainEx_ok h3
    rw [modify_ok.1 h4]
    refine ⟨fun _ => ⟨by omega, by omega, by omega⟩, ?_, ?_⟩
    · simp only [hops3, hops2, hops1, if_neg hx, append_assoc]
    · simp only [hsp3, hsp2, hsp1, if_neg hx]

/-- What planning one row adds, and what it has checked by then. -/
theorem planRow_ok {shimCol : ℕ} {x : CtrlRowChain} {done done' : List AcrOp} {p p' : Planner}
    (h : planRow shimCol ctrlId top x done p = .ok (done', p')) :
    (x.row ≠ 0 ∧ shimCol ≤ x.colLo) ∧
      (x.row ∉ p.spine.rows → x.colLo ≤ x.colHi ∧ shimCol < 64 ∧ p.spine.rows.length ≤ ACR_MAX_ROW_IDX) ∧
      done' = done ++ rowOps shimCol ctrlId top p.spine x ∧ p'.spine = p.spine.add x.row := by
  unfold planRow at h
  cases hr : acrPlanRowAdd shimCol x.row x.colLo x.colHi ctrlId (x.row = top) { p with ops := [] } with
  | error e q => rw [hr] at h; cases h
  | ok u q =>
    rw [hr] at h
    cases h
    obtain ⟨h1, h2, h3, h4⟩ := acrPlanRowAdd_ok hr
    exact ⟨h1, h2, by rw [h3, nil_append], h4⟩

/-- **The run rule of the request loop**: what holds at the start and survives every
successful round (of a row with `Q`) holds of the operations of the whole request. -/
theorem planRowsFrom_induct {shimCol : ℕ} {I : List CtrlRowChain → List AcrOp → AcrState → Prop}
    {Q : CtrlRowChain → Prop} (hstep : ∀ seen x done done' p p', Q x → I seen done p.spine →
      planRow shimCol ctrlId top x done p = .ok (done', p') → I (seen ++ [x]) done' p'.spine) :
    ∀ xs seen done p done' p', (∀ x ∈ xs, Q x) → I seen done p.spine →
      planRowsFrom shimCol ctrlId top xs done p = .ok (done', p') → I (seen ++ xs) done' p'.spine := by
  intro xs
  induction xs with
  | nil =>
    intro seen done p done' p' _ hI h
    cases h
    rwa [append_nil]
  | cons x xs ih =>
    intro seen done p done' p' hQ hI h
    unfold planRowsFrom at h
    cases hr : planRow shimCol ctrlId top x done p with
    | error e => rw [hr] at h; cases h
    | ok q =>
      obtain ⟨d1, p1⟩ := q
      rw [hr] at h
      have hI1 := hstep seen x done d1 p p1 (hQ x (by simp)) hI hr
      have h1 := ih (seen ++ [x]) d1 p1 done' p' (fun y hy => hQ y (by simp [hy])) hI1 h
      rwa [append_assoc, singleton_append] at h1

end AieHlc.Control
