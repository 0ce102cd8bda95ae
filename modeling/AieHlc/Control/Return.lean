import AieHlc.Control.Forward

/-!
# Return delivery

A response enters at a tile's control slave, merges west to the head of its row
and descends the spine: through the circuit hops of pass-through rows and the
north slots of the heads below. The induction west is on the column, the one
down the spine on the row.

* `descend`: from the south master of a row on the spine to the shim.
* `merge_west`: from any tile of a chain to the shim.
* `return_delivery`: every response leaves row 1 to the south exactly once.
-/

namespace AieHlc.Control

open AieHlc.Fabric

/-- One arrival at the south exit of row 1. -/
def shimExit (shimCol : ℕ) (s : (ℕ × ℕ) × AcrPort) : ℕ := if s = ((shimCol, 1), .south) then 1 else 0

section Fabric

variable {shimCol top : ℕ} {hs : List CtrlRowChain} {ops : List AcrOp} {s : AcrState} {i : ℕ}
    {x : CtrlRowChain}
  (hP : Planned shimCol top hs ops s) (hi : hs[i]? = some x)

include hP hi

/-- **A response on the spine descends to the shim**, from any row up to a head's. -/
theorem Planned.descend (id : ℕ) : ∀ r, 1 ≤ r → r ≤ x.row →
    HopArrives (fabricNext ops id) (linkHop link (shimCol, r) .south) (shimExit shimCol) := by
  intro r
  induction r with
  | zero => intro h; omega
  | succ r ih =>
    intro _ hle
    by_cases hr0 : r = 0
    · subst hr0
      exact fun t => rfl
    · have hdown := ih (by omega) (by omega)
      have hlink : linkHop link (shimCol, r + 1) .south = .fwd ((shimCol, r), .north) := by
        simp [linkHop, link, hr0]
      rw [hlink]
      by_cases hr : r ∈ hs.map CtrlRowChain.row
      · obtain ⟨y, hy, rfl⟩ := List.mem_map.1 hr
        obtain ⟨j, hj⟩ := List.mem_iff_getElem?.1 hy
        have hsp := hP.span_of hj
        have hcfg := hP.head j y hj shimCol le_rfl (by omega)
        have hnt : decide (y.row = top) = false := by
          have := hP.span_of hi
          simp
          omega
        have hnext := ret_north hcfg id rfl hnt
        rw [retHop, if_pos rfl] at hnext
        exact Arrives.step hnext hdown.single
      · exact Arrives.step (hop_north (hP.pass_below hi hr (by omega) (by omega)) id) hdown.single

/-- **The responses of a chain merge west to its head.** -/
theorem Planned.merge_west (id : ℕ) : ∀ c, shimCol ≤ c → c ≤ x.colHi →
    HopArrives (fabricNext ops id) (retHop shimCol c x.row) (shimExit shimCol) := by
  have hsp := hP.span_of hi
  intro c
  induction c with
  | zero =>
    intro h1 h2
    have h0 : 0 = shimCol := by omega
    rw [retHop, if_pos h0, h0]
    exact hP.descend hi id x.row hsp.1 le_rfl
  | succ c ih =>
    intro h1 h2
    by_cases hc : c + 1 = shimCol
    · rw [retHop, if_pos hc, hc]
      exact hP.descend hi id x.row hsp.1 le_rfl
    · have hlink : retHop shimCol (c + 1) x.row = .fwd ((c, x.row), .east) := by
        simp [retHop, hc, linkHop, link]
      rw [hlink]
      have hcfg := hP.head i x hi c (by omega) (by omega)
      exact Arrives.step (ret_east hcfg id (by omega)) (ih (by omega) (by omega)).single

end Fabric

/-- **Return delivery.** For every request on which the planner succeeds, a response
with any id from the control slave of any target tile leaves through the south master
of row 1 on the spine column exactly once, and nowhere else; no copy circulates. -/
theorem return_delivery {shimCol ctrlId : ℕ} {rows : List CtrlRowChain} {ops : List AcrOp}
    (h : planRows shimCol ctrlId rows = .ok ops) {t : ℕ × ℕ} (ht : IsTarget (heads rows) t) (id : ℕ) :
    Arrives (fabricNext ops id) (t, .ctrl) fun s => if s = ((shimCol, 1), .south) then 1 else 0 := by
  obtain ⟨s, hP⟩ := planned_planRows h
  obtain ⟨x, hx, htx⟩ := ht
  obtain ⟨i, hi⟩ := List.mem_iff_getElem?.1 hx
  obtain ⟨c, r⟩ := t
  obtain ⟨rfl, hlo, hhi⟩ : r = x.row ∧ x.colLo ≤ c ∧ c ≤ x.colHi := htx
  have hsp := hP.span_of hi
  have hcfg := hP.head i x hi c (by omega) hhi
  exact Arrives.step (ret_ctrl hcfg id hlo) (hP.merge_west hi id c (by omega) hhi).single

/-- The response of tile (2, 3) when row 3 was added before row 1, and row 1 again. -/
theorem return_delivery_rows_3_1 : ∃ ops,
    planRows 1 0 [⟨3, 1, 2⟩, ⟨1, 2, 2⟩, ⟨1, 1, 2⟩] = .ok ops ∧
    Arrives (fabricNext ops 29) ((2, 3), .ctrl) fun s => if s = ((1, 1), .south) then 1 else 0 := by
  obtain ⟨ops, hops⟩ := exists_ok_of_isOk
    (show (planRows 1 0 [⟨3, 1, 2⟩, ⟨1, 2, 2⟩, ⟨1, 1, 2⟩]).isOk = true by decide +kernel)
  exact ⟨ops, hops, return_delivery hops (by decide) 29⟩

end AieHlc.Control
