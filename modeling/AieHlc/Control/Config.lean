import AieHlc.Control.Ops
import AieHlc.Fabric.Switch

/-!
# The switch configuration a request leaves

The emitted operations, read as writes to the switches where the last write to a
port wins, and what they amount to. A request of rows is a list of *heads*, the
first request of every row in the order they came; a later request of the same
row changes nothing.

* `config`: the switch of every tile after a list of operations.
* `tileSwitch`, `hopSwitch`: the switch of a chain tile and of a pass-through tile.
* `Planned`: tile by tile, the configuration of a list of heads.
* `planned_planRows`: every successful request leaves a `Planned` configuration,
  in any order of its rows. A row added below an existing one lands on a tile that
  held the two circuit hops, and overwrites both.
-/

namespace AieHlc.Control

open List AieHlc.Fabric AieHlc.Prog

variable {t : ℕ × ℕ} {ops : List AcrOp} {c r : ℕ}

/-- The switch write an operation stands for. Every emitted port index is `0`. -/
def AcrOp.write (o : AcrOp) : Write AcrPort :=
  match o.kind with
  | .slot => .slot o.sport o.slot ⟨o.pktId, o.mask, o.msel, o.arbiter⟩
  | .slaveEn => .slaveEn o.sport
  | .masterEn => .masterEn o.mport o.arbiter o.mselen
  | .cct => .circuit o.sport o.mport

/-- The writes of a list of operations to the tile `t = (col, row)`, in order. -/
def writesAt (t : ℕ × ℕ) (ops : List AcrOp) : List (Write AcrPort) :=
  (ops.filter fun o => (o.col, o.row) = t).map AcrOp.write

/-- The switch of tile `t` after the operations. -/
def config (ops : List AcrOp) (t : ℕ × ℕ) : Switch AcrPort := Switch.reset.writes (writesAt t ops)

@[simp] theorem writesAt_nil (t : ℕ × ℕ) : writesAt t [] = [] := rfl

theorem writesAt_append (t : ℕ × ℕ) (ops ops' : List AcrOp) :
    writesAt t (ops ++ ops') = writesAt t ops ++ writesAt t ops' := by
  rw [writesAt, filter_append, map_append]; rfl

theorem config_append (ops ops' : List AcrOp) (t : ℕ × ℕ) :
    config (ops ++ ops') t = (config ops t).writes (writesAt t ops') := by
  rw [config, writesAt_append, Switch.writes_append]; rfl

/-- All operations of `ops` are for tile `t`. -/
def AllAt (t : ℕ × ℕ) (ops : List AcrOp) : Prop := ∀ o ∈ ops, (o.col, o.row) = t

theorem AllAt.append {ops' : List AcrOp} (h : AllAt t ops) (h' : AllAt t ops') : AllAt t (ops ++ ops') := by
  intro o ho
  rcases mem_append.1 ho with ho | ho
  · exact h o ho
  · exact h' o ho

theorem AllAt.ite {c : Prop} [Decidable c] {ops' : List AcrOp} (h : AllAt t ops) (h' : AllAt t ops') :
    AllAt t (if c then ops else ops') := by
  split
  · exact h
  · exact h'

theorem AllAt.nil (t : ℕ × ℕ) : AllAt t [] := fun _ h => by cases h

theorem AllAt.cons {o : AcrOp} (ho : (o.col, o.row) = t) (h : AllAt t ops) : AllAt t (o :: ops) := by
  intro o' ho'
  rcases mem_cons.1 ho' with rfl | ho'
  · exact ho
  · exact h o' ho'

theorem AllAt.writesAt (h : AllAt t ops) : writesAt t ops = ops.map AcrOp.write := by
  rw [Control.writesAt, filter_eq_self.2 fun o ho => by simpa using h o ho]

theorem AllAt.writesAt_ne {t' : ℕ × ℕ} (h : AllAt t ops) (hne : t ≠ t') : Control.writesAt t' ops = [] := by
  rw [Control.writesAt, filter_eq_nil_iff.2, map_nil]
  intro o ho
  rw [decide_eq_true_eq, h o ho]
  exact hne

/-- If each piece writes one tile, a tile gets the writes of its own piece. -/
theorem writesAt_flatMap {f : ℕ → List AcrOp} {k : ℕ → ℕ × ℕ} (hf : ∀ x, AllAt (k x) (f x))
    (hk : Function.Injective k) (x : ℕ) :
    ∀ l : List ℕ, l.Nodup →
      writesAt (k x) (l.flatMap f) = if x ∈ l then (f x).map AcrOp.write else [] := by
  intro l
  induction l with
  | nil => intro _; simp
  | cons y l ih =>
    intro hnd
    obtain ⟨hy, hl⟩ := nodup_cons.1 hnd
    rw [flatMap_cons, writesAt_append, ih hl]
    by_cases hxy : y = x
    · subst hxy
      rw [(hf y).writesAt, if_neg hy, if_pos mem_cons_self, append_nil]
    · rw [(hf y).writesAt_ne fun h => hxy (hk h), nil_append]
      simp only [mem_cons, Ne.symm hxy, false_or]

theorem writesAt_flatMap_ne {f : ℕ → List AcrOp} {k : ℕ → ℕ × ℕ} (hf : ∀ x, AllAt (k x) (f x)) :
    ∀ l : List ℕ, (∀ x ∈ l, k x ≠ t) → writesAt t (l.flatMap f) = [] := by
  intro l
  induction l with
  | nil => intro _; rfl
  | cons y l ih =>
    intro h
    rw [flatMap_cons, writesAt_append, (hf y).writesAt_ne (h y (by simp)), nil_append]
    exact ih fun x hx => h x (by simp [hx])

theorem chainTileOps_at (row rowidx colLo targetLo colHi ctrlId : ℕ) (shimCol : ℤ)
    (headIngress : AcrPort) (isTop : Bool) (c : ℕ) :
    AllAt (c, row) (chainTileOps row rowidx colLo targetLo colHi ctrlId shimCol headIngress isTop c) := by
  unfold chainTileOps
  have h1 : ∀ o : AcrOp, (o.col, o.row) = (c, row) → AllAt (c, row) [o] :=
    fun o ho => AllAt.cons ho (AllAt.nil _)
  refine AllAt.append (AllAt.append (AllAt.append (AllAt.append (AllAt.append ?_ ?_) ?_) ?_) ?_) ?_
  · exact AllAt.cons rfl (h1 _ rfl)
  · exact (h1 _ rfl).ite (AllAt.nil _)
  · exact h1 _ rfl
  · exact (h1 _ rfl).ite (AllAt.nil _)
  · exact (h1 _ rfl).ite (AllAt.nil _)
  · exact (h1 _ rfl).ite (AllAt.nil _)

theorem retSlotOps_at (c row : ℕ) (sport : AcrPort) (slot msel : ℕ) :
    AllAt (c, row) (retSlotOps c row sport slot msel) :=
  AllAt.cons rfl (AllAt.cons rfl (AllAt.nil _))

theorem returnTileOps_at (row colLo targetLo colHi : ℕ) (isTop : Bool) (c : ℕ) :
    AllAt (c, row) (returnTileOps row colLo targetLo colHi isTop c) := by
  unfold returnTileOps
  refine AllAt.append (AllAt.append ?_ ?_) (AllAt.ite (AllAt.append ?_ ?_) ?_)
  · exact (retSlotOps_at c row _ _ _).ite (AllAt.nil _)
  · exact (retSlotOps_at c row _ _ _).ite (AllAt.nil _)
  · exact (retSlotOps_at c row _ _ _).ite (AllAt.nil _)
  · exact AllAt.cons rfl (AllAt.nil _)
  · exact AllAt.cons rfl (AllAt.nil _)

theorem hopOps_at (shimCol : ℕ) (s : AcrState) (r : ℕ) : AllAt (shimCol, r) (hopOps shimCol s r) :=
  (AllAt.nil _).ite (AllAt.cons rfl (AllAt.cons rfl (AllAt.nil _)))

/-- The slots a forward ingress arms: the row's own multicast, the broadcast and, on
a head that climbs, everything else that is a row multicast. -/
def fwdSlots (rowidx : ℕ) (climbs : Bool) : ℕ → Option Slot
  | 0 => some ⟨rowidx, ACR_MASK_CONSUME, ACR_MSEL_CONSUME, ACR_ARB_CTRL⟩
  | 1 => some ⟨ACR_ID_BCAST, ACR_MASK_BCAST, ACR_MSEL_BCAST, ACR_ARB_CTRL⟩
  | 2 => if climbs then some ⟨ACR_ID_TRANSIT, ACR_MASK_CLASS, ACR_MSEL_TRANSIT_N, ACR_ARB_CTRL⟩ else none
  | _ => none

/-- The only slot of a return slave accepts any id; its index is its select bit. -/
def retSlot (msel : ℕ) : ℕ → Option Slot := fun i => if i = msel then some ⟨0, 0, msel, ACR_ARB_RET⟩ else none

/-- The switch of tile `c` of the chain `x`, whose row was the `rowidx`-th one added. -/
def tileSwitch (shimCol rowidx : ℕ) (x : CtrlRowChain) (isTop : Bool) (c : ℕ) : Switch AcrPort where
  slots
    | .south => if c = shimCol then fwdSlots rowidx (!isTop) else fun _ => none
    | .west => if c = shimCol then fun _ => none else fwdSlots rowidx false
    | .ctrl => if x.colLo ≤ c then retSlot ACR_MSEL_RET_LOCAL else fun _ => none
    | .east => if c < x.colHi then retSlot ACR_MSEL_RET_TRANSIT else fun _ => none
    | .north => if c = shimCol ∧ isTop = false then retSlot ACR_MSEL_RET_NORTH else fun _ => none
  slave
    | .south => if c = shimCol then .packet else .off
    | .west => if c = shimCol then .off else .packet
    | .ctrl => if x.colLo ≤ c then .packet else .off
    | .east => if c < x.colHi then .packet else .off
    | .north => if c = shimCol ∧ isTop = false then .packet else .off
  master
    | .ctrl => if x.colLo ≤ c then .packet ACR_ARB_CTRL ACR_MSELEN_CTRL else .off
    | .east => if c ≠ x.colHi then .packet ACR_ARB_CTRL ACR_MSELEN_EAST else .off
    | .north => if c = shimCol ∧ isTop = false then .packet ACR_ARB_CTRL ACR_MSELEN_NORTH else .off
    | .south =>
      if c = shimCol then .packet ACR_ARB_RET (retHeadMselen (x.colLo ≤ c) (c < x.colHi) isTop) else .off
    | .west => if c = shimCol then .off else .packet ACR_ARB_RET (retMidMselen (x.colLo ≤ c))

/-- The switch of a pass-through tile of the spine: up and down, circuit switched. -/
def hopSwitch : Switch AcrPort where
  slots := fun _ _ => none
  slave
    | .south | .north => .circuit
    | _ => .off
  master
    | .north => .circuit .south
    | .south => .circuit .north
    | _ => .off

theorem isSpineHead_shim {shimCol : ℕ} (h : shimCol < 64) (isTop : Bool) (c : ℕ) :
    isSpineHead shimCol shimCol isTop c = (decide (c = shimCol) && !isTop) := by
  have h256 : (shimCol : ℤ) % 256 = shimCol := by omega
  unfold isSpineHead
  rw [h256]
  by_cases hc : c = shimCol
  · simp [hc]
  · simp [hc]

def tileWrites (shimCol rowidx ctrlId : ℕ) (x : CtrlRowChain) (isTop : Bool) (c : ℕ) : List (Write AcrPort) :=
  (chainTileOps x.row rowidx shimCol x.colLo x.colHi ctrlId shimCol .south isTop c).map AcrOp.write ++
    (returnTileOps x.row shimCol x.colLo x.colHi isTop c).map AcrOp.write

theorem reset_hops (shimCol r : ℕ) :
    Switch.reset.writes ([cctOp shimCol r .south .north 0, cctOp shimCol r .north .south 1].map AcrOp.write) =
      hopSwitch := by
  ext p
  · rfl
  · cases p <;> rfl
  · cases p <;> rfl

@[simp] theorem slotOp_write (c row : ℕ) (p : AcrPort) (slot pkt mask msel arb : ℕ) :
    (slotOp c row p slot pkt mask msel arb).write = .slot p slot ⟨pkt, mask, msel, arb⟩ := rfl

@[simp] theorem slaveEnOp_write (c row : ℕ) (p : AcrPort) (pktId isRet : ℕ) :
    (slaveEnOp c row p pktId isRet).write = .slaveEn p := rfl

@[simp] theorem masterOp_write (c row : ℕ) (p : AcrPort) (mselen arb : ℕ) :
    (masterOp c row p mselen arb).write = .masterEn p arb mselen := rfl

theorem map_write_ite (c : Prop) [Decidable c] (l l' : List AcrOp) :
    (if c then l else l').map AcrOp.write = if c then l.map AcrOp.write else l'.map AcrOp.write := by
  split <;> rfl

/-- A switch without slots whose ports are off, save perhaps the spine ports of a
tile that is about to become a head. -/
structure Vacant (w : Switch AcrPort) (spine : Prop) : Prop where
  slots : ∀ p i, w.slots p i = none
  slave : ∀ p, (p = .north ∨ p = .south) ∧ spine ∨ w.slave p = .off
  master : ∀ p, (p = .north ∨ p = .south) ∧ spine ∨ w.master p = .off

theorem vacant_reset (spine : Prop) : Vacant Switch.reset spine :=
  ⟨fun _ _ => rfl, fun _ => .inr rfl, fun _ => .inr rfl⟩

theorem vacant_hopSwitch : Vacant hopSwitch True := by
  refine ⟨fun _ _ => rfl, fun p => ?_, fun p => ?_⟩ <;> cases p <;> simp [hopSwitch]

section TileWrites

variable {shimCol : ℕ} (hs : shimCol < 64) (rowidx ctrlId : ℕ) (x : CtrlRowChain) (isTop : Bool) {c : ℕ}
  {w : Switch AcrPort} (hw : Vacant w (c = shimCol ∧ isTop = false))

include hs hw

theorem writes_tile_master (m : AcrPort) :
    (w.writes (tileWrites shimCol rowidx ctrlId x isTop c)).master m =
      (tileSwitch shimCol rowidx x isTop c).master m := by
  have hoff := hw.master m
  rw [Switch.writes_master]
  unfold tileWrites chainTileOps returnTileOps
  rw [isSpineHead_shim hs]
  cases m <;> simp [map_write_ite, Write.master?, retSlotOps, tileSwitch] at hoff ⊢
  all_goals split_ifs <;> simp_all

theorem writes_tile_slave (p : AcrPort) :
    (w.writes (tileWrites shimCol rowidx ctrlId x isTop c)).slave p =
      (tileSwitch shimCol rowidx x isTop c).slave p := by
  have hoff := hw.slave p
  rw [Switch.writes_slave]
  unfold tileWrites chainTileOps returnTileOps
  rw [isSpineHead_shim hs]
  cases p <;> simp [map_write_ite, Write.slave?, retSlotOps, tileSwitch] at hoff ⊢
  all_goals split_ifs <;> simp_all

theorem writes_tile_slots (p : AcrPort) (i : ℕ) :
    (w.writes (tileWrites shimCol rowidx ctrlId x isTop c)).slots p i =
      (tileSwitch shimCol rowidx x isTop c).slots p i := by
  rw [Switch.writes_slots, hw.slots]
  unfold tileWrites chainTileOps returnTileOps
  rw [isSpineHead_shim hs]
  by_cases hc : c = shimCol <;> rcases i with _ | _ | _ | i <;> cases p <;>
    simp [hc, map_write_ite, Write.slot?, retSlotOps, tileSwitch, fwdSlots, ACR_CLASS_ALL_BUT_LAST,
      ACR_SLOT_CONSUME, ACR_SLOT_BCAST, ACR_SLOT_TRANSIT_N, ACR_SLOT_RET_LOCAL, ACR_SLOT_RET_TRANSIT,
      ACR_SLOT_RET_NORTH, ACR_MSEL_RET_LOCAL, ACR_MSEL_RET_TRANSIT, ACR_MSEL_RET_NORTH]
  all_goals split_ifs <;> simp [retSlot]

/-- **A chain tile's writes determine its switch**, also over the circuit hops a
pass-through tile held before its row was added. -/
theorem writes_tile :
    w.writes (tileWrites shimCol rowidx ctrlId x isTop c) = tileSwitch shimCol rowidx x isTop c := by
  refine Switch.ext ?_ ?_ ?_
  · funext p i; exact writes_tile_slots hs rowidx ctrlId x isTop hw p i
  · funext p; exact writes_tile_slave hs rowidx ctrlId x isTop hw p
  · funext p; exact writes_tile_master hs rowidx ctrlId x isTop hw p

end TileWrites

theorem mem_cols {lo hi : ℕ} : c ∈ cols lo hi ↔ lo ≤ c ∧ c ≤ hi := by
  unfold cols
  rw [mem_range'_1]
  omega

theorem nodup_cols (lo hi : ℕ) : (cols lo hi).Nodup := nodup_range'

theorem mem_newHops {s : AcrState} {row : ℕ} : r ∈ newHops s row ↔ s.spineTop < r ∧ r < row := by
  unfold newHops
  rw [mem_range'_1]
  omega

theorem nodup_newHops (s : AcrState) (row : ℕ) : (newHops s row).Nodup := nodup_range'

theorem prod_mk_left_injective (r : ℕ) : Function.Injective fun c : ℕ => (c, r) := fun a b h => by
  simpa using h

theorem prod_mk_right_injective (c : ℕ) : Function.Injective fun r : ℕ => (c, r) := fun a b h => by
  simpa using h

section RowOps

variable {shimCol ctrlId top : ℕ} {s : AcrState} {x : CtrlRowChain}

/-- Only the tiles by which the spine grows get a hop. -/
theorem writesAt_hops (c r : ℕ) :
    writesAt (c, r) ((newHops s x.row).flatMap (hopOps shimCol s)) =
      if c = shimCol ∧ r ∈ newHops s x.row then (hopOps shimCol s r).map AcrOp.write else [] := by
  by_cases hc : c = shimCol
  · subst hc
    rw [writesAt_flatMap (k := fun r => (c, r)) (hopOps_at c s) (prod_mk_right_injective c) r _
      (nodup_newHops s x.row)]
    simp
  · rw [writesAt_flatMap_ne (hopOps_at shimCol s), if_neg fun h => hc h.1]
    intro y _ h
    exact hc (congrArg Prod.fst h).symm

/-- A tile gets the writes of its row's chain and nothing of the others. -/
theorem writesAt_chains (c r : ℕ) :
    writesAt (c, r) ((cols shimCol x.colHi).flatMap
        (chainTileOps x.row s.rows.length shimCol x.colLo x.colHi ctrlId shimCol .south (x.row = top)) ++
      (cols shimCol x.colHi).flatMap (returnTileOps x.row shimCol x.colLo x.colHi (x.row = top))) =
      if r = x.row ∧ c ∈ cols shimCol x.colHi then tileWrites shimCol s.rows.length ctrlId x (x.row = top) c
      else [] := by
  have hf := chainTileOps_at x.row s.rows.length shimCol x.colLo x.colHi ctrlId shimCol .south (x.row = top)
  have hr := returnTileOps_at x.row shimCol x.colLo x.colHi (x.row = top)
  rw [writesAt_append]
  by_cases h : r = x.row
  · subst h
    rw [writesAt_flatMap (k := fun c => (c, x.row)) hf (prod_mk_left_injective _) c _ (nodup_cols _ _),
      writesAt_flatMap (k := fun c => (c, x.row)) hr (prod_mk_left_injective _) c _ (nodup_cols _ _)]
    by_cases hc : c ∈ cols shimCol x.colHi
    · simp [hc, tileWrites]
    · simp [hc]
  · have hne : ∀ y ∈ cols shimCol x.colHi, ((y, x.row) : ℕ × ℕ) ≠ (c, r) := by
      intro y _ hy
      exact h (congrArg Prod.snd hy).symm
    rw [writesAt_flatMap_ne hf _ hne, writesAt_flatMap_ne hr _ hne, if_neg fun hh => h hh.1]
    rfl

/-- **What a request writes to a tile**: its chain tiles on the row itself, the hops
on the new pass-through rows below, and nothing anywhere else. -/
theorem writesAt_rowOps (hx : x.row ∉ s.rows) (c r : ℕ) :
    writesAt (c, r) (rowOps shimCol ctrlId top s x) =
      if r = x.row ∧ c ∈ cols shimCol x.colHi then tileWrites shimCol s.rows.length ctrlId x (x.row = top) c
      else if c = shimCol ∧ r ∈ newHops s x.row then (hopOps shimCol s r).map AcrOp.write else [] := by
  unfold rowOps
  rw [if_neg hx, append_assoc, writesAt_append, writesAt_hops, writesAt_chains]
  by_cases h : r = x.row ∧ c ∈ cols shimCol x.colHi
  · have hn : r ∉ newHops s x.row := by rw [mem_newHops]; omega
    rw [if_neg fun hh => hn hh.2, if_pos h, nil_append]
  · simp [h]

end RowOps

/-! ### The invariant of the request loop -/

/-- A request of a row that is already there adds no head. -/
def addHead (hs : List CtrlRowChain) (x : CtrlRowChain) : List CtrlRowChain :=
  if x.row ∈ hs.map CtrlRowChain.row then hs else hs ++ [x]

def heads (rows : List CtrlRowChain) : List CtrlRowChain := rows.foldl addHead []

/-- The operations `ops` and the spine `s` are those of the heads `hs`, with `top` the
largest row of the whole request. -/
structure Planned (shimCol top : ℕ) (hs : List CtrlRowChain) (ops : List AcrOp) (s : AcrState) : Prop where
  rows : s.rows = hs.map CtrlRowChain.row
  nodup : (hs.map CtrlRowChain.row).Nodup
  span : ∀ x ∈ hs, 1 ≤ x.row ∧ x.row ≤ top ∧ shimCol ≤ x.colLo ∧ x.colLo ≤ x.colHi
  few : hs.length ≤ ACR_MAX_ROW_IDX + 1
  reach : ∀ x ∈ hs, x.row ≤ s.spineTop + 1
  under : s.spineTop = 0 ∨ s.spineTop < top
  head : ∀ i x, hs[i]? = some x → ∀ c, shimCol ≤ c → c ≤ x.colHi →
    config ops (c, x.row) = tileSwitch shimCol i x (x.row = top) c
  other : ∀ c r, r ∉ hs.map CtrlRowChain.row →
    config ops (c, r) = if c = shimCol ∧ 1 ≤ r ∧ r ≤ s.spineTop then hopSwitch else Switch.reset

theorem planned_init (shimCol top : ℕ) : Planned shimCol top [] [] ⟨0, []⟩ where
  rows := rfl
  nodup := nodup_nil
  span := by simp
  few := by simp
  reach := by simp
  under := .inl rfl
  head := by simp
  other := by
    intro c r _
    simp only
    rw [if_neg (by omega)]
    rfl

section Step

variable {shimCol ctrlId top : ℕ} {s : AcrState} {x : CtrlRowChain} {hs : List CtrlRowChain}
    {ops : List AcrOp}

/-- A new row's tile is vacant: a pass-through tile of the spine lies below the top row. -/
theorem Planned.vacant (hP : Planned shimCol top hs ops s) (hx : x.row ∉ hs.map CtrlRowChain.row)
    (c : ℕ) : Vacant (config ops (c, x.row)) (c = shimCol ∧ decide (x.row = top) = false) := by
  rw [hP.other c x.row hx]
  split
  · rename_i h
    have hlt : x.row ≠ top := by
      have := hP.under
      omega
    simpa [h.1, hlt] using vacant_hopSwitch
  · exact vacant_reset _

theorem Planned.config_old (hx : x.row ∉ s.rows) (hr : r ∈ s.rows) :
    config (ops ++ rowOps shimCol ctrlId top s x) (c, r) = config ops (c, r) := by
  have hne : r ≠ x.row := fun h => hx (h ▸ hr)
  have hhop : hopOps shimCol s r = [] := by simp [hopOps, acrRowIsHead, hr]
  rw [config_append, writesAt_rowOps hx, if_neg fun h => hne h.1, hhop]
  simp

theorem Planned.config_new (hP : Planned shimCol top hs ops s) (hs64 : shimCol < 64) (hx : x.row ∉ s.rows)
    (h1 : shimCol ≤ c) (h2 : c ≤ x.colHi) :
    config (ops ++ rowOps shimCol ctrlId top s x) (c, x.row) =
      tileSwitch shimCol hs.length x (x.row = top) c := by
  have hlen : s.rows.length = hs.length := by rw [hP.rows, length_map]
  rw [config_append, writesAt_rowOps hx, if_pos ⟨rfl, mem_cols.2 ⟨h1, h2⟩⟩, hlen]
  exact writes_tile hs64 _ _ _ _ (hP.vacant (hP.rows ▸ hx) c)

/-- Every other tile: the spine now passes through all rows below the new one. -/
theorem Planned.config_other (hP : Planned shimCol top hs ops s) (hx : x.row ∉ s.rows) (hr : r ∉ s.rows)
    (hrx : r ≠ x.row) :
    config (ops ++ rowOps shimCol ctrlId top s x) (c, r) =
      if c = shimCol ∧ 1 ≤ r ∧ r ≤ max s.spineTop (x.row - 1) then hopSwitch else Switch.reset := by
  have hops : hopOps shimCol s r = [cctOp shimCol r .south .north 0, cctOp shimCol r .north .south 1] := by
    simp [hopOps, acrRowIsHead, hr]
  rw [config_append, writesAt_rowOps hx, if_neg fun h => hrx h.1, hops]
  by_cases hn : c = shimCol ∧ r ∈ newHops s x.row
  · rw [if_pos hn, hP.other c r (hP.rows ▸ hr)]
    rw [mem_newHops] at hn
    rw [if_neg (by omega), if_pos (by omega), reset_hops]
  · rw [if_neg hn, Switch.writes_nil, hP.other c r (hP.rows ▸ hr)]
    rw [mem_newHops] at hn
    by_cases hle : c = shimCol ∧ 1 ≤ r ∧ r ≤ s.spineTop
    · rw [if_pos hle, if_pos (by omega)]
    · rw [if_neg hle, if_neg (by omega)]

/-- **The step**: a new row extends the plan by a head. -/
theorem Planned.add (hP : Planned shimCol top hs ops s) (hx : x.row ∉ s.rows) (hpos : x.row ≠ 0)
    (htop : x.row ≤ top) (hlo : shimCol ≤ x.colLo) (hhi : x.colLo ≤ x.colHi) (hs64 : shimCol < 64)
    (hfew : s.rows.length ≤ ACR_MAX_ROW_IDX) :
    Planned shimCol top (hs ++ [x]) (ops ++ rowOps shimCol ctrlId top s x) (s.add x.row) := by
  have hxh : x.row ∉ hs.map CtrlRowChain.row := hP.rows ▸ hx
  have hlen : s.rows.length = hs.length := by rw [hP.rows, length_map]
  have hadd : s.add x.row = ⟨max s.spineTop (x.row - 1), s.rows ++ [x.row]⟩ := if_neg hx
  rw [hadd]
  refine ⟨?_, ?_, ?_, ?_, ?_, ?_, ?_, ?_⟩
  · simp [hP.rows]
  · rw [map_append, nodup_append]
    refine ⟨hP.nodup, by simp, ?_⟩
    intro a ha b hb hab
    simp only [map_cons, map_nil, mem_singleton] at hb
    exact hxh (hb ▸ hab ▸ ha)
  · intro y hy
    rcases mem_append.1 hy with hy | hy
    · exact hP.span y hy
    · rw [mem_singleton.1 hy]; omega
  · rw [length_append, ← hlen, length_singleton]; omega
  · intro y hy
    simp only
    rcases mem_append.1 hy with hy | hy
    · have := hP.reach y hy; omega
    · rw [mem_singleton.1 hy]; omega
  · have := hP.under
    simp only
    omega
  · intro i y hi c h1 h2
    rcases lt_or_ge i hs.length with hlt | hge
    · rw [getElem?_append_left hlt] at hi
      have hy : y ∈ hs := mem_of_getElem? hi
      rw [Planned.config_old hx (hP.rows ▸ mem_map_of_mem hy)]
      exact hP.head i y hi c h1 h2
    · rw [getElem?_append_right hge] at hi
      obtain ⟨hi0, rfl⟩ : i - hs.length = 0 ∧ x = y := by
        simpa [getElem?_singleton] using hi
      have hieq : i = hs.length := by omega
      rw [hieq]
      exact hP.config_new hs64 hx h1 h2
  · intro c r hr
    simp only [map_append, map_cons, map_nil, mem_append, mem_singleton, not_or] at hr
    exact hP.config_other hx (hP.rows ▸ hr.1) hr.2

end Step

theorem le_foldl_top : ∀ (xs : List CtrlRowChain) (t : ℕ),
    t ≤ xs.foldl (fun t y => if y.row > t then y.row else t) t ∧
      ∀ x ∈ xs, x.row ≤ xs.foldl (fun t y => if y.row > t then y.row else t) t := by
  intro xs
  induction xs with
  | nil => intro t; simp
  | cons y ys ih =>
    intro t
    simp only [foldl_cons, mem_cons]
    have h := ih (if y.row > t then y.row else t)
    refine ⟨le_trans ?_ h.1, ?_⟩
    · split <;> omega
    · rintro x (rfl | hx)
      · refine le_trans ?_ h.1
        split <;> omega
      · exact h.2 x hx

theorem le_topRow {rows : List CtrlRowChain} {x : CtrlRowChain} (hx : x ∈ rows) : x.row ≤ topRow rows := by
  cases rows with
  | nil => cases hx
  | cons y ys =>
    rcases mem_cons.1 hx with rfl | hx
    · exact (le_foldl_top ys _).1
    · exact (le_foldl_top ys _).2 x hx

/-- **Every successful request leaves the configuration of its heads**, in whatever
order the rows came. -/
theorem planned_planRows {shimCol ctrlId : ℕ} {rows : List CtrlRowChain}
    (h : planRows shimCol ctrlId rows = .ok ops) : ∃ s, Planned shimCol (topRow rows) (heads rows) ops s := by
  unfold planRows at h
  cases hr : planRowsFrom shimCol ctrlId (topRow rows) rows [] Planner.init with
  | error e => rw [hr] at h; cases h
  | ok q =>
    obtain ⟨done, p⟩ := q
    rw [hr] at h
    cases h
    refine ⟨p.spine, ?_⟩
    -- the heads of a longer request are those of its first rows plus perhaps the last
    refine planRowsFrom_induct (Q := fun x => x.row ≤ topRow rows)
      (I := fun seen done s => Planned shimCol (topRow rows) (heads seen) done s)
      ?_ rows [] [] Planner.init done p (fun x hx => le_topRow hx) (planned_init _ _) hr
    intro seen x done done' p p' htop hP hx
    obtain ⟨⟨hpos, hlo⟩, hnew, rfl, hsp⟩ := planRow_ok hx
    rw [hsp, show heads (seen ++ [x]) = addHead (heads seen) x by simp [heads]]
    by_cases hmem : x.row ∈ p.spine.rows
    · have hadd : addHead (heads seen) x = heads seen := if_pos (hP.rows ▸ hmem)
      simp only [hadd, rowOps, AcrState.add, if_pos hmem, append_nil]
      exact hP
    · have hadd : addHead (heads seen) x = heads seen ++ [x] := if_neg (hP.rows ▸ hmem)
      obtain ⟨hhi, hs64, hfew⟩ := hnew hmem
      rw [hadd]
      exact hP.add hmem hpos htop hlo hhi hs64 hfew

end AieHlc.Control
