import AieHlc.Control.Config

/-!
# Hops of the control fabric

Where a packet goes next, tile by tile, in a planned configuration. The fabric
is a mesh: a master drives the facing slave of the neighbouring tile; the `CTRL`
master ends at the tile's control port and the `SOUTH` master of row 1 leaves
towards the shim.

* `fabricNext`: the forwarding network of a list of operations.
* `fwd_south_own`, `fwd_south_bcast`, `fwd_south_other`, `fwd_west`: the forward hops.
* `ret_ctrl`, `ret_east`, `ret_north`: the return hops.
* `hop_south`, `hop_north`: a pass-through tile.
-/

namespace AieHlc.Control

open AieHlc.Fabric

/-- The slave a master drives, if it stays in the array. -/
def link (t : ℕ × ℕ) : AcrPort → Option ((ℕ × ℕ) × AcrPort)
  | .east => some ((t.1 + 1, t.2), .west)
  | .west => if t.1 = 0 then none else some ((t.1 - 1, t.2), .east)
  | .north => some ((t.1, t.2 + 1), .south)
  | .south => if t.2 ≤ 1 then none else some ((t.1, t.2 - 1), .north)
  | .ctrl => none

/-- The forwarding network of a list of operations, for packets of one id. -/
def fabricNext (ops : List AcrOp) (id : ℕ) :
    (ℕ × ℕ) × AcrPort → List (Hop ((ℕ × ℕ) × AcrPort) ((ℕ × ℕ) × AcrPort)) :=
  meshNext ACR_NUM_SLOTS AcrPort.all link (config ops) id

/-- The id of a packet for the row of add-order index `i`. -/
def rowId (i : ℕ) : ℕ := (ACR_CLASS_WHOLE_ROW <<< 2) ||| i

theorem consume_takes_rowId : ∀ i ≤ ACR_MAX_ROW_IDX, ∀ j ≤ ACR_MAX_ROW_IDX,
    (rowId i &&& ACR_MASK_CONSUME = j &&& ACR_MASK_CONSUME ↔ i = j) := by decide

theorem bcast_takes_rowId : ∀ i ≤ ACR_MAX_ROW_IDX,
    rowId i &&& ACR_MASK_BCAST ≠ ACR_ID_BCAST &&& ACR_MASK_BCAST := by decide

theorem transit_takes_rowId : ∀ i ≤ ACR_MAX_ROW_IDX,
    rowId i &&& ACR_MASK_CLASS = ACR_ID_TRANSIT &&& ACR_MASK_CLASS := by decide

theorem consume_takes_bcast : ∀ j ≤ ACR_MAX_ROW_IDX,
    ACR_ID_BCAST &&& ACR_MASK_CONSUME ≠ j &&& ACR_MASK_CONSUME := by decide

section Lookup

variable {w : Switch AcrPort} {p : AcrPort} {i j : ℕ} {climbs : Bool} (hw : w.slots p = fwdSlots j climbs)
  (hj : j ≤ ACR_MAX_ROW_IDX)

include hw hj

theorem lookup_own : w.lookup ACR_NUM_SLOTS p (rowId j) =
    some ⟨j, ACR_MASK_CONSUME, ACR_MSEL_CONSUME, ACR_ARB_CTRL⟩ := by
  have h0 : w.slots p 0 = some ⟨j, ACR_MASK_CONSUME, ACR_MSEL_CONSUME, ACR_ARB_CTRL⟩ := by rw [hw]; rfl
  exact Switch.lookup_eq h0 ((consume_takes_rowId j hj j hj).2 rfl) (by omega) _ (by decide)

/-- The broadcast id is not a row's, so the slot of the row is passed over. -/
theorem lookup_bcast : w.lookup ACR_NUM_SLOTS p ACR_ID_BCAST =
    some ⟨ACR_ID_BCAST, ACR_MASK_BCAST, ACR_MSEL_BCAST, ACR_ARB_CTRL⟩ := by
  have h1 : w.slots p 1 = some ⟨ACR_ID_BCAST, ACR_MASK_BCAST, ACR_MSEL_BCAST, ACR_ARB_CTRL⟩ := by rw [hw]; rfl
  refine Switch.lookup_eq h1 rfl ?_ _ (by decide)
  intro k hk s hs
  obtain rfl : k = 0 := by omega
  rw [hw] at hs
  cases hs
  exact consume_takes_bcast j hj

/-- The id of another row goes to the transit slot, if the spine goes on. -/
theorem lookup_other (hi : i ≤ ACR_MAX_ROW_IDX) (hij : i ≠ j) (hc : climbs = true) :
    w.lookup ACR_NUM_SLOTS p (rowId i) =
      some ⟨ACR_ID_TRANSIT, ACR_MASK_CLASS, ACR_MSEL_TRANSIT_N, ACR_ARB_CTRL⟩ := by
  subst hc
  have h2 : w.slots p 2 = some ⟨ACR_ID_TRANSIT, ACR_MASK_CLASS, ACR_MSEL_TRANSIT_N, ACR_ARB_CTRL⟩ := by
    rw [hw]; rfl
  refine Switch.lookup_eq h2 (transit_takes_rowId i hi) ?_ _ (by decide)
  intro k hk s hs
  rw [hw] at hs
  rcases k with _ | _ | k
  · cases hs
    exact fun h => hij ((consume_takes_rowId i hi j hj).1 h)
  · cases hs
    exact bcast_takes_rowId i hi
  · omega

end Lookup

theorem lookup_ret {w : Switch AcrPort} {p : AcrPort} {k : ℕ} (hw : w.slots p = retSlot k)
    (hk : k < ACR_NUM_SLOTS) (id : ℕ) : w.lookup ACR_NUM_SLOTS p id = some ⟨0, 0, k, ACR_ARB_RET⟩ := by
  refine Switch.lookup_eq (i := k) (by rw [hw]; simp [retSlot]) (by simp [Slot.Takes]) ?_ _ hk
  intro j hj s hs
  rw [hw, retSlot, if_neg (by omega)] at hs
  cases hs

section Tile

variable {shimCol j : ℕ} {x : CtrlRowChain} {isTop : Bool} {c : ℕ}

/-- Whether a chain tile's master takes a slot's packets. -/
def tilePulls (shimCol : ℕ) (x : CtrlRowChain) (isTop : Bool) (c : ℕ) (s : Slot) : AcrPort → Bool
  | .west => c ≠ shimCol && s.arb = ACR_ARB_RET && (retMidMselen (x.colLo ≤ c)).testBit s.msel
  | .east => c ≠ x.colHi && s.arb = ACR_ARB_CTRL && ACR_MSELEN_EAST.testBit s.msel
  | .north => c = shimCol && !isTop && s.arb = ACR_ARB_CTRL && ACR_MSELEN_NORTH.testBit s.msel
  | .south =>
    c = shimCol && s.arb = ACR_ARB_RET && (retHeadMselen (x.colLo ≤ c) (c < x.colHi) isTop).testBit s.msel
  | .ctrl => x.colLo ≤ c && s.arb = ACR_ARB_CTRL && ACR_MSELEN_CTRL.testBit s.msel

/-- A packet leaves by the masters that pull its slot. -/
theorem egress_slot {id : ℕ} {p : AcrPort} {s : Slot}
    (hp : (tileSwitch shimCol j x isTop c).slave p = .packet)
    (hs : (tileSwitch shimCol j x isTop c).lookup ACR_NUM_SLOTS p id = some s) :
    (tileSwitch shimCol j x isTop c).egress ACR_NUM_SLOTS AcrPort.all id p =
      AcrPort.all.filter (tilePulls shimCol x isTop c s) := by
  rw [Switch.egress_packet hp hs]
  refine List.filter_congr fun m _ => ?_
  cases m with
  | west => by_cases h : c = shimCol <;> simp [tileSwitch, tilePulls, h]
  | east => by_cases h : c = x.colHi <;> simp [tileSwitch, tilePulls, h]
  | north => by_cases h : c = shimCol <;> cases isTop <;> simp [tileSwitch, tilePulls, h]
  | south => by_cases h : c = shimCol <;> simp [tileSwitch, tilePulls, h]
  | ctrl => by_cases h : x.colLo ≤ c <;> simp [tileSwitch, tilePulls, h]

theorem filter_all (f : AcrPort → Bool) :
    AcrPort.all.filter f =
      (if f .west then [.west] else []) ++ (if f .east then [.east] else []) ++
      (if f .north then [.north] else []) ++ (if f .south then [.south] else []) ++
      (if f .ctrl then [.ctrl] else []) := by
  simp only [AcrPort.all, List.filter_cons, List.filter_nil]
  cases f .west <;> cases f .east <;> cases f .north <;> cases f .south <;> cases f .ctrl <;> rfl

/-- East along the chain, and into the tile if it is a target. -/
theorem pulls_consume (k m : ℕ) :
    AcrPort.all.filter (tilePulls shimCol x isTop c ⟨k, m, ACR_MSEL_CONSUME, ACR_ARB_CTRL⟩) =
      (if c ≠ x.colHi then [.east] else []) ++ (if x.colLo ≤ c then [.ctrl] else []) := by
  have he : ACR_MSELEN_EAST.testBit ACR_MSEL_CONSUME = true := by decide
  have hn : ACR_MSELEN_NORTH.testBit ACR_MSEL_CONSUME = false := by decide
  have hc : ACR_MSELEN_CTRL.testBit ACR_MSEL_CONSUME = true := by decide
  have ha : ACR_ARB_CTRL ≠ ACR_ARB_RET := by decide
  rw [filter_all]
  simp [tilePulls, he, hn, hc, ha]

/-- A broadcast also climbs, on a head below the top. -/
theorem pulls_bcast (k m : ℕ) :
    AcrPort.all.filter (tilePulls shimCol x isTop c ⟨k, m, ACR_MSEL_BCAST, ACR_ARB_CTRL⟩) =
      (if c ≠ x.colHi then [.east] else []) ++ (if c = shimCol ∧ isTop = false then [.north] else []) ++
      (if x.colLo ≤ c then [.ctrl] else []) := by
  have he : ACR_MSELEN_EAST.testBit ACR_MSEL_BCAST = true := by decide
  have hn : ACR_MSELEN_NORTH.testBit ACR_MSEL_BCAST = true := by decide
  have hc : ACR_MSELEN_CTRL.testBit ACR_MSEL_BCAST = true := by decide
  have ha : ACR_ARB_CTRL ≠ ACR_ARB_RET := by decide
  rw [filter_all]
  simp [tilePulls, he, hn, hc, ha]

theorem pulls_transit (k m : ℕ) (hc : c = shimCol) (ht : isTop = false) :
    AcrPort.all.filter (tilePulls shimCol x isTop c ⟨k, m, ACR_MSEL_TRANSIT_N, ACR_ARB_CTRL⟩) = [.north] := by
  have he : ACR_MSELEN_EAST.testBit ACR_MSEL_TRANSIT_N = false := by decide
  have hn : ACR_MSELEN_NORTH.testBit ACR_MSEL_TRANSIT_N = true := by decide
  have hcc : ACR_MSELEN_CTRL.testBit ACR_MSEL_TRANSIT_N = false := by decide
  have ha : ACR_ARB_CTRL ≠ ACR_ARB_RET := by decide
  rw [filter_all]
  simp [tilePulls, he, hn, hcc, ha, hc, ht]

/-- Replies go west to the spine, and down it. -/
theorem pulls_ret (k m b : ℕ)
    (hhead : c = shimCol → (retHeadMselen (x.colLo ≤ c) (c < x.colHi) isTop).testBit b)
    (hmid : c ≠ shimCol → (retMidMselen (x.colLo ≤ c)).testBit b) :
    AcrPort.all.filter (tilePulls shimCol x isTop c ⟨k, m, b, ACR_ARB_RET⟩) =
      [if c = shimCol then .south else .west] := by
  have ha : ACR_ARB_RET ≠ ACR_ARB_CTRL := by decide
  rw [filter_all]
  by_cases hc : c = shimCol
  · have := hhead hc
    rw [hc] at this ⊢
    simp [tilePulls, ha, this]
  · simp [tilePulls, ha, hc, hmid hc]

end Tile

section Next

variable {shimCol j top : ℕ} {x : CtrlRowChain} {isTop : Bool} {c r : ℕ} {ops : List AcrOp}
  (hcfg : config ops (c, r) = tileSwitch shimCol j x isTop c) (hj : j ≤ ACR_MAX_ROW_IDX)

theorem fabricNext_eq (ops : List AcrOp) (id : ℕ) (t : ℕ × ℕ) (p : AcrPort) :
    fabricNext ops id (t, p) =
      ((config ops t).egress ACR_NUM_SLOTS AcrPort.all id p).map (linkHop link t) := rfl

include hcfg hj

theorem fwd_south_own (hc : c = shimCol) :
    fabricNext ops (rowId j) ((c, r), .south) =
      (if c ≠ x.colHi then [.fwd ((c + 1, r), .west)] else []) ++
      (if x.colLo ≤ c then [.out ((c, r), .ctrl)] else []) := by
  have hl : (tileSwitch shimCol j x isTop c).slots .south = fwdSlots j (!isTop) := by simp [tileSwitch, hc]
  rw [fabricNext_eq, hcfg, egress_slot (by simp [tileSwitch, hc]) (lookup_own hl hj), pulls_consume]
  split_ifs <;> rfl

/-- On the spine a broadcast goes three ways: along the row, up, and into the tile. -/
theorem fwd_south_bcast (hc : c = shimCol) :
    fabricNext ops ACR_ID_BCAST ((c, r), .south) =
      (if c ≠ x.colHi then [.fwd ((c + 1, r), .west)] else []) ++
      (if isTop = false then [.fwd ((c, r + 1), .south)] else []) ++
      (if x.colLo ≤ c then [.out ((c, r), .ctrl)] else []) := by
  have hl : (tileSwitch shimCol j x isTop c).slots .south = fwdSlots j (!isTop) := by simp [tileSwitch, hc]
  rw [fabricNext_eq, hcfg, egress_slot (by simp [tileSwitch, hc]) (lookup_bcast hl hj), pulls_bcast]
  simp only [hc, true_and]
  split_ifs <;> rfl

theorem fwd_south_other {i : ℕ} (hc : c = shimCol) (ht : isTop = false) (hi : i ≤ ACR_MAX_ROW_IDX)
    (hij : i ≠ j) :
    fabricNext ops (rowId i) ((c, r), .south) = [.fwd ((c, r + 1), .south)] := by
  have hl : (tileSwitch shimCol j x isTop c).slots .south = fwdSlots j (!isTop) := by simp [tileSwitch, hc]
  rw [fabricNext_eq, hcfg, egress_slot (by simp [tileSwitch, hc])
    (lookup_other hl hj hi hij (by simp [ht])), pulls_transit _ _ hc ht]
  rfl

/-- Off the spine a packet for the row goes on to the row's last column. -/
theorem fwd_west {id : ℕ} (hc : c ≠ shimCol) (hid : id = rowId j ∨ id = ACR_ID_BCAST) :
    fabricNext ops id ((c, r), .west) =
      (if c ≠ x.colHi then [.fwd ((c + 1, r), .west)] else []) ++
      (if x.colLo ≤ c then [.out ((c, r), .ctrl)] else []) := by
  have hl : (tileSwitch shimCol j x isTop c).slots .west = fwdSlots j false := by simp [tileSwitch, hc]
  have hp : (tileSwitch shimCol j x isTop c).slave .west = .packet := by simp [tileSwitch, hc]
  rw [fabricNext_eq, hcfg]
  rcases hid with rfl | rfl
  · rw [egress_slot hp (lookup_own hl hj), pulls_consume]
    split_ifs <;> rfl
  · have hn : ¬(c = shimCol ∧ isTop = false) := fun h => hc h.1
    rw [egress_slot hp (lookup_bcast hl hj), pulls_bcast, if_neg hn, List.append_nil]
    split_ifs <;> rfl

omit hj

/-- The hop of a response: south from a head, west from any other tile. -/
def retHop (shimCol c r : ℕ) : Hop ((ℕ × ℕ) × AcrPort) ((ℕ × ℕ) × AcrPort) :=
  linkHop link (c, r) (if c = shimCol then .south else .west)

/-- From each port a reply can come in at, it takes the same way. -/
theorem ret_ctrl (id : ℕ) (hc : x.colLo ≤ c) :
    fabricNext ops id ((c, r), .ctrl) = [retHop shimCol c r] := by
  have hl : (tileSwitch shimCol j x isTop c).slots .ctrl = retSlot ACR_MSEL_RET_LOCAL := by
    simp [tileSwitch, hc]
  rw [fabricNext_eq, hcfg, egress_slot (by simp [tileSwitch, hc]) (lookup_ret hl (by decide) id), pulls_ret]
  · rfl
  · intro _
    simp only [hc, decide_true]
    cases isTop <;> by_cases h : c < x.colHi <;> simp only [h] <;> decide
  · intro _
    simp only [hc]
    decide

theorem ret_east (id : ℕ) (hc : c < x.colHi) :
    fabricNext ops id ((c, r), .east) = [retHop shimCol c r] := by
  have hl : (tileSwitch shimCol j x isTop c).slots .east = retSlot ACR_MSEL_RET_TRANSIT := by
    simp [tileSwitch, hc]
  rw [fabricNext_eq, hcfg, egress_slot (by simp [tileSwitch, hc]) (lookup_ret hl (by decide) id), pulls_ret]
  · rfl
  · intro _
    simp only [hc, decide_true]
    cases isTop <;> by_cases h : x.colLo ≤ c <;> simp only [h] <;> decide
  · intro _
    by_cases h : x.colLo ≤ c <;> simp only [h] <;> decide

theorem ret_north (id : ℕ) (hc : c = shimCol) (ht : isTop = false) :
    fabricNext ops id ((c, r), .north) = [retHop shimCol c r] := by
  have hl : (tileSwitch shimCol j x isTop c).slots .north = retSlot ACR_MSEL_RET_NORTH := by
    simp [tileSwitch, hc, ht]
  rw [fabricNext_eq, hcfg, egress_slot (by simp [tileSwitch, hc, ht])
    (lookup_ret hl (by decide) id), pulls_ret]
  · rfl
  · intro _
    rw [ht]
    by_cases h : x.colLo ≤ c <;> by_cases h' : c < x.colHi <;> simp only [h, h'] <;> decide
  · exact fun h => absurd hc h

end Next

theorem hop_south {ops : List AcrOp} {t : ℕ × ℕ} (hcfg : config ops t = hopSwitch) (id : ℕ) :
    fabricNext ops id (t, .south) = [.fwd ((t.1, t.2 + 1), .south)] := by
  rw [fabricNext_eq, hcfg]
  rfl

theorem hop_north {ops : List AcrOp} {t : ℕ × ℕ} (hcfg : config ops t = hopSwitch) (id : ℕ) :
    fabricNext ops id (t, .north) = [linkHop link t .south] := by
  rw [fabricNext_eq, hcfg]
  rfl

end AieHlc.Control
