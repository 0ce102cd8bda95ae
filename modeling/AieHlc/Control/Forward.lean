import AieHlc.Control.Delivery
import Mathlib.Data.List.Nodup

/-!
# Forward delivery

A packet that enters the spine below row 1 climbs it, row by row, until a head
consumes it; the head's chain carries it east. The induction on a row is on the
tiles left to its east, the one on the spine on the rows left above.

* `row_arrives`: along a chain, the control port of every target tile, once.
* `climb_own`: a row multicast climbs to its row and to no other.
* `climb_bcast`: a broadcast reaches every target at or above its row.
* `forward_delivery`: both, for every successful request.
* `writesAt_outside`: other tiles are left alone.
-/

namespace AieHlc.Control

open List AieHlc.Fabric

variable {x : CtrlRowChain} {id r : ℕ}

/-- Tile `t` is a target of the chain `x`. -/
def CtrlRowChain.Target (x : CtrlRowChain) (t : ℕ × ℕ) : Prop :=
  t.2 = x.row ∧ x.colLo ≤ t.1 ∧ t.1 ≤ x.colHi

instance (x : CtrlRowChain) (t : ℕ × ℕ) : Decidable (x.Target t) :=
  inferInstanceAs (Decidable (_ ∧ _ ∧ _))

/-- One arrival at the control port of every target of `x` from column `c` on. -/
def rowArrivals (x : CtrlRowChain) (c : ℕ) (s : (ℕ × ℕ) × AcrPort) : ℕ :=
  if (x.Target s.1 ∧ c ≤ s.1.1) ∧ s.2 = .ctrl then 1 else 0

theorem rowArrivals_step {c : ℕ} (hc : c ≤ x.colHi) (s : (ℕ × ℕ) × AcrPort) :
    (if c ≠ x.colHi then rowArrivals x (c + 1) s else 0) +
        (if x.colLo ≤ c then (if s = ((c, x.row), .ctrl) then 1 else 0) else 0) = rowArrivals x c s := by
  obtain ⟨⟨c', r'⟩, p⟩ := s
  unfold rowArrivals CtrlRowChain.Target
  simp only [Prod.mk.injEq]
  by_cases hp : p = .ctrl
  · by_cases hr : r' = x.row
    · simp only [hp, hr, and_true, true_and]
      split_ifs <;> omega
    · simp [hr]
  · simp [hp]

theorem rowArrivals_shim {shimCol : ℕ} (h : shimCol ≤ x.colLo) (s : (ℕ × ℕ) × AcrPort) :
    rowArrivals x shimCol s = if x.Target s.1 ∧ s.2 = .ctrl then 1 else 0 := by
  unfold rowArrivals CtrlRowChain.Target
  have : (s.1.2 = x.row ∧ x.colLo ≤ s.1.1 ∧ s.1.1 ≤ x.colHi) ∧ shimCol ≤ s.1.1 ↔
      s.1.2 = x.row ∧ x.colLo ≤ s.1.1 ∧ s.1.1 ≤ x.colHi := by omega
  exact if_congr (and_congr_left fun _ => this) rfl rfl

/-- The hops of a chain tile, once they deliver east of it, deliver from it on. -/
theorem tile_arrives {ops : List AcrOp} {c : ℕ} (hc : c ≤ x.colHi)
    (heast : c ≠ x.colHi → Arrives (fabricNext ops id) ((c + 1, x.row), .west) (rowArrivals x (c + 1))) :
    HopsArrive (fabricNext ops id)
      ((if c ≠ x.colHi then [.fwd ((c + 1, x.row), .west)] else []) ++
        (if x.colLo ≤ c then [.out ((c, x.row), .ctrl)] else [])) (rowArrivals x c) := by
  have hout : HopsArrive (fabricNext ops id) (if x.colLo ≤ c then [.out ((c, x.row), .ctrl)] else []) _ :=
    HopArrives.ite (f := fun t => if t = ((c, x.row), .ctrl) then 1 else 0) fun _ _ => rfl
  have hfwd : HopsArrive (fabricNext ops id) (if c ≠ x.colHi then [.fwd ((c + 1, x.row), .west)] else []) _ :=
    HopArrives.ite heast
  exact (hout.append hfwd).congr (rowArrivals_step hc)

section Fabric

variable {shimCol top : ℕ} {hs : List CtrlRowChain} {ops : List AcrOp} {s : AcrState} {i : ℕ}
    {x : CtrlRowChain}
  (hP : Planned shimCol top hs ops s) (hi : hs[i]? = some x)

include hP hi

theorem Planned.idx_le : i ≤ ACR_MAX_ROW_IDX := by
  have hlt := (List.getElem?_eq_some_iff.1 hi).1
  have := hP.few
  omega

theorem Planned.span_of : 1 ≤ x.row ∧ x.row ≤ top ∧ shimCol ≤ x.colLo ∧ x.colLo ≤ x.colHi :=
  hP.span x (mem_of_getElem? hi)

/-- **A chain carries its packets to every target east of the entry.** -/
theorem Planned.row_arrives (hid : id = rowId i ∨ id = ACR_ID_BCAST) :
    ∀ n c, x.colHi - c = n → shimCol < c → c ≤ x.colHi →
      Arrives (fabricNext ops id) ((c, x.row), .west) (rowArrivals x c) := by
  intro n
  induction n with
  | zero =>
    intro c hn h1 h2
    have hcfg := hP.head i x hi c (by omega) h2
    exact Arrives.step (fwd_west hcfg (hP.idx_le hi) (by omega) hid)
      (tile_arrives h2 fun h => absurd (by omega) h)
  | succ n ih =>
    intro c hn h1 h2
    have hcfg := hP.head i x hi c (by omega) h2
    exact Arrives.step (fwd_west hcfg (hP.idx_le hi) (by omega) hid)
      (tile_arrives h2 fun _ => ih (c + 1) (by omega) (by omega) (by omega))

theorem Planned.head_arrives (hid : id = rowId i ∨ id = ACR_ID_BCAST) :
    HopsArrive (fabricNext ops id)
      ((if shimCol ≠ x.colHi then [.fwd ((shimCol + 1, x.row), .west)] else []) ++
        (if x.colLo ≤ shimCol then [.out ((shimCol, x.row), .ctrl)] else [])) (rowArrivals x shimCol) := by
  have hsp := hP.span_of hi
  exact tile_arrives (by omega) fun h => hP.row_arrives hi hid _ _ rfl (by omega) (by omega)

theorem Planned.pass_below (hr : r ∉ hs.map CtrlRowChain.row) (h1 : 1 ≤ r) (hlt : r < x.row) :
    config ops (shimCol, r) = hopSwitch := by
  have := hP.reach x (mem_of_getElem? hi)
  rw [hP.other shimCol r hr, if_pos (by omega)]

/-- **A row multicast climbs to its own row**, through pass-through rows and through
the transit slots of other heads. -/
theorem Planned.climb_own : ∀ n r, x.row - r = n → 1 ≤ r → r ≤ x.row →
    Arrives (fabricNext ops (rowId i)) ((shimCol, r), .south) (rowArrivals x shimCol) := by
  have hsp := hP.span_of hi
  intro n
  induction n with
  | zero =>
    intro r hn h1 h2
    obtain rfl : r = x.row := by omega
    have hcfg := hP.head i x hi shimCol le_rfl (by omega)
    exact Arrives.step (fwd_south_own hcfg (hP.idx_le hi) rfl) (hP.head_arrives hi (.inl rfl))
  | succ n ih =>
    intro r hn h1 h2
    have hup := ih (r + 1) (by omega) (by omega) (by omega)
    by_cases hr : r ∈ hs.map CtrlRowChain.row
    · obtain ⟨y, hy, rfl⟩ := mem_map.1 hr
      obtain ⟨j, hj⟩ := mem_iff_getElem?.1 hy
      have hysp := hP.span_of hj
      have hcfg := hP.head j y hj shimCol le_rfl (by omega)
      have hij : i ≠ j := by
        rintro rfl
        rw [hi] at hj
        cases hj
        omega
      exact Arrives.pass (fwd_south_other hcfg (hP.idx_le hj) rfl (by simp; omega) (hP.idx_le hi) hij) hup
    · exact Arrives.pass (hop_south (hP.pass_below hi hr h1 (by omega)) _) hup

theorem Planned.head_unique {y : CtrlRowChain} (hy : y ∈ hs) (hr : y.row = x.row) : y = x :=
  inj_on_of_nodup_map hP.nodup hy (mem_of_getElem? hi) hr

end Fabric

/-- Tile `t` is a target of some configured row. -/
def IsTarget (hs : List CtrlRowChain) (t : ℕ × ℕ) : Prop := ∃ x ∈ hs, x.Target t

instance (hs : List CtrlRowChain) (t : ℕ × ℕ) : Decidable (IsTarget hs t) :=
  inferInstanceAs (Decidable (∃ x ∈ hs, x.Target t))

/-- One arrival at the control port of every target at or above row `r`. -/
def bcastArrivals (hs : List CtrlRowChain) (r : ℕ) (s : (ℕ × ℕ) × AcrPort) : ℕ :=
  if (IsTarget hs s.1 ∧ r ≤ s.1.2) ∧ s.2 = .ctrl then 1 else 0

section Broadcast

variable {shimCol top : ℕ} {hs : List CtrlRowChain} {ops : List AcrOp} {s : AcrState}
  (hP : Planned shimCol top hs ops s)

theorem bcastArrivals_pass (hr : r ∉ hs.map CtrlRowChain.row) (t : (ℕ × ℕ) × AcrPort) :
    bcastArrivals hs (r + 1) t = bcastArrivals hs r t := by
  unfold bcastArrivals
  refine if_congr (and_congr_left fun _ => and_congr_right fun ht => ?_) rfl rfl
  obtain ⟨x, hx, htx⟩ := ht
  have hne : x.row ≠ r := fun h => hr (h ▸ mem_map_of_mem hx)
  have := htx.1
  omega

include hP

theorem Planned.bcastArrivals_head {i : ℕ} (hi : hs[i]? = some x) (t : (ℕ × ℕ) × AcrPort) :
    rowArrivals x shimCol t + bcastArrivals hs (x.row + 1) t = bcastArrivals hs x.row t := by
  have hsp := hP.span_of hi
  rw [rowArrivals_shim (by omega)]
  unfold bcastArrivals
  by_cases hp : t.2 = .ctrl
  · simp only [hp, and_true]
    by_cases hx : x.Target t.1
    · have htx := hx.1
      have hmem : IsTarget hs t.1 := ⟨x, mem_of_getElem? hi, hx⟩
      rw [if_pos hx, if_neg (by omega), if_pos ⟨hmem, by omega⟩]
    · rw [if_neg hx, zero_add]
      refine if_congr (and_congr_right fun ht => ?_) rfl rfl
      obtain ⟨y, hy, hty⟩ := ht
      have hne : y.row ≠ x.row := fun h => hx (hP.head_unique hi hy h ▸ hty)
      have := hty.1
      omega
  · simp [hp]

/-- **A broadcast reaches every target at or above the row it enters.** -/
theorem Planned.climb_bcast {k : ℕ} {z : CtrlRowChain} (hk : hs[k]? = some z) (hz : z.row = top) :
    ∀ n r, top - r = n → 1 ≤ r → r ≤ top →
      Arrives (fabricNext ops ACR_ID_BCAST) ((shimCol, r), .south) (bcastArrivals hs r) := by
  intro n
  induction n with
  | zero =>
    intro r hn h1 h2
    obtain rfl : r = z.row := by omega
    have hsp := hP.span_of hk
    have hcfg := hP.head k z hk shimCol le_rfl (by omega)
    have hnext := fwd_south_bcast hcfg (hP.idx_le hk) rfl
    simp only [hz, decide_true, Bool.true_eq_false, if_false, append_nil] at hnext
    rw [← hz] at hnext
    refine Arrives.step hnext ((hP.head_arrives hk (.inr rfl)).congr fun t => ?_)
    -- nothing is above the top row
    have habove : bcastArrivals hs (z.row + 1) t = 0 := by
      unfold bcastArrivals
      rw [if_neg]
      rintro ⟨⟨⟨y, hy, hty⟩, hle⟩, -⟩
      have := hty.1
      have := (hP.span y hy).2.1
      omega
    rw [← hP.bcastArrivals_head hk, habove, add_zero]
  | succ n ih =>
    intro r hn h1 h2
    have hup := ih (r + 1) (by omega) (by omega) (by omega)
    by_cases hr : r ∈ hs.map CtrlRowChain.row
    · obtain ⟨y, hy, rfl⟩ := mem_map.1 hr
      obtain ⟨j, hj⟩ := mem_iff_getElem?.1 hy
      have hsp := hP.span_of hj
      have hcfg := hP.head j y hj shimCol le_rfl (by omega)
      have hnt : decide (y.row = top) = false := by simp; omega
      have hnext := fwd_south_bcast hcfg (hP.idx_le hj) rfl
      rw [hnt, if_pos rfl, append_assoc, singleton_append] at hnext
      have hnorth : HopArrives (fabricNext ops ACR_ID_BCAST) (.fwd ((shimCol, y.row + 1), .south)) _ := hup
      exact Arrives.step hnext
        ((HopsArrive.insert hnorth (hP.head_arrives hj (.inr rfl))).congr (hP.bcastArrivals_head hj))
    · have hpass := Arrives.pass (hop_south (hP.pass_below hk hr h1 (by omega)) ACR_ID_BCAST) hup
      rwa [funext (bcastArrivals_pass hr)] at hpass

end Broadcast

theorem mem_heads_row {rows : List CtrlRowChain} (h : r ∈ rows.map CtrlRowChain.row) :
    r ∈ (heads rows).map CtrlRowChain.row := by
  have hgo : ∀ (xs hs : List CtrlRowChain),
      r ∈ hs.map CtrlRowChain.row ∨ r ∈ xs.map CtrlRowChain.row →
      r ∈ (xs.foldl addHead hs).map CtrlRowChain.row := by
    intro xs
    induction xs with
    | nil => intro hs h; simpa using h
    | cons x xs ih =>
      intro hs h
      rw [foldl_cons]
      refine ih _ ?_
      unfold addHead
      rw [map_cons, mem_cons, ← or_assoc] at h
      refine h.imp_left fun h => ?_
      split
      · rename_i hx
        rcases h with h | rfl
        · exact h
        · exact hx
      · simpa [or_comm, eq_comm] using h
  exact hgo rows [] (.inr h)

theorem foldl_top_mem : ∀ (xs : List CtrlRowChain) (t : ℕ),
    xs.foldl (fun t y => if y.row > t then y.row else t) t ∈ t :: xs.map CtrlRowChain.row := by
  intro xs
  induction xs with
  | nil => intro t; simp
  | cons y ys ih =>
    intro t
    rw [foldl_cons]
    have h := ih (if y.row > t then y.row else t)
    rw [mem_cons] at h
    rw [map_cons, mem_cons, mem_cons]
    rcases h with h | h
    · rw [h]
      split
      · exact .inr (.inl rfl)
      · exact .inl rfl
    · exact .inr (.inr h)

theorem exists_top_head {rows : List CtrlRowChain} (hne : rows ≠ []) :
    ∃ (k : ℕ) (z : CtrlRowChain), (heads rows)[k]? = some z ∧ z.row = topRow rows := by
  have hmem : topRow rows ∈ rows.map CtrlRowChain.row := by
    cases rows with
    | nil => exact absurd rfl hne
    | cons x xs => exact foldl_top_mem xs x.row
  obtain ⟨z, hz, hzr⟩ := mem_map.1 (mem_heads_row hmem)
  obtain ⟨k, hk⟩ := mem_iff_getElem?.1 hz
  exact ⟨k, z, hk, hzr⟩

/-- **Forward delivery.** For every request on which the planner succeeds, a packet
with the id of the `i`-th distinct row, entering the spine below row 1, reaches the
control port of each target of that row exactly once and nothing else; a broadcast
reaches every target of every row exactly once and nothing else. -/
theorem forward_delivery {shimCol ctrlId : ℕ} {rows : List CtrlRowChain} {ops : List AcrOp}
    (h : planRows shimCol ctrlId rows = .ok ops) :
    (∀ i x, (heads rows)[i]? = some x →
      Arrives (fabricNext ops (rowId i)) ((shimCol, 1), .south)
        fun s => if x.Target s.1 ∧ s.2 = .ctrl then 1 else 0) ∧
    Arrives (fabricNext ops ACR_ID_BCAST) ((shimCol, 1), .south)
      fun s => if IsTarget (heads rows) s.1 ∧ s.2 = .ctrl then 1 else 0 := by
  obtain ⟨s, hP⟩ := planned_planRows h
  constructor
  · intro i x hi
    have hsp := hP.span_of hi
    have harr := hP.climb_own hi _ 1 rfl le_rfl hsp.1
    rwa [funext (rowArrivals_shim hsp.2.2.1)] at harr
  · by_cases hne : rows = []
    · -- an empty request configures nothing, and the packet is dropped at once
      subst hne
      cases h
      have hnext : fabricNext [] ACR_ID_BCAST ((shimCol, 1), .south) = [] := rfl
      exact Arrives.step hnext fun t => by simp [IsTarget, heads]
    · obtain ⟨k, z, hk, hz⟩ := exists_top_head hne
      have hsp := hP.span_of hk
      have harr := hP.climb_bcast hk hz _ 1 rfl le_rfl (by omega)
      have heq : ∀ t, bcastArrivals (heads rows) 1 t =
          if IsTarget (heads rows) t.1 ∧ t.2 = .ctrl then 1 else 0 := by
        intro t
        refine if_congr (and_congr_left fun _ => and_iff_left_of_imp ?_) rfl rfl
        rintro ⟨y, hy, hty⟩
        have := (hP.span y hy).1
        have := hty.1
        omega
      rwa [funext heq] at harr

theorem exists_ok_of_isOk {ε α : Type} {e : Except ε α} (h : e.isOk = true) : ∃ a, e = .ok a := by
  cases e with
  | error e => cases h
  | ok a => exact ⟨a, rfl⟩

/-- Rows 3, 1 and 3 again, on spine column 1: row 1 lands on a pass-through tile. -/
theorem forward_delivery_rows_3_1 : ∃ ops,
    planRows 1 0 [⟨3, 1, 2⟩, ⟨1, 2, 2⟩, ⟨3, 1, 1⟩] = .ok ops ∧
    (∀ i x, (heads [⟨3, 1, 2⟩, ⟨1, 2, 2⟩, ⟨3, 1, 1⟩])[i]? = some x →
      Arrives (fabricNext ops (rowId i)) ((1, 1), .south)
        fun s => if x.Target s.1 ∧ s.2 = .ctrl then 1 else 0) ∧
    Arrives (fabricNext ops ACR_ID_BCAST) ((1, 1), .south)
      fun s => if IsTarget (heads [⟨3, 1, 2⟩, ⟨1, 2, 2⟩, ⟨3, 1, 1⟩]) s.1 ∧ s.2 = .ctrl then 1 else 0 := by
  obtain ⟨ops, hops⟩ := exists_ok_of_isOk
    (show (planRows 1 0 [⟨3, 1, 2⟩, ⟨1, 2, 2⟩, ⟨3, 1, 1⟩]).isOk = true by decide +kernel)
  exact ⟨ops, hops, forward_delivery hops⟩

/-- **A request leaves other tiles alone**: nothing is written below row 1, west of the shim column,
or east of the columns of all rows that are requested at this height or above. -/
theorem writesAt_outside {shimCol ctrlId c r : ℕ} {rows : List CtrlRowChain} {ops : List AcrOp}
    (h : planRows shimCol ctrlId rows = .ok ops)
    (hout : r = 0 ∨ c < shimCol ∨ ∀ x ∈ rows, r ≤ x.row → x.colHi < c) : writesAt (c, r) ops = [] := by
  unfold planRows at h
  cases hr : planRowsFrom shimCol ctrlId (topRow rows) rows [] Planner.init with
  | error e => rw [hr] at h; cases h
  | ok q =>
    rw [hr] at h
    cases h
    refine planRowsFrom_induct (Q := (· ∈ rows)) (I := fun _ done _ => writesAt (c, r) done = [])
      ?_ rows [] []
      Planner.init q.1 q.2 (fun _ hx => hx) rfl hr
    intro seen x done done' p p' hx hI hp
    obtain ⟨⟨hpos, hlo⟩, hnew, rfl, -⟩ := planRow_ok hp
    rw [writesAt_append, hI, nil_append]
    by_cases hmem : x.row ∈ p.spine.rows
    · rw [rowOps, if_pos hmem]
      rfl
    have hout := hout.imp_right (Or.imp_right fun h => h x hx)
    rw [writesAt_rowOps hmem, if_neg, if_neg]
    · rw [mem_newHops]
      have := (hnew hmem).1
      omega
    · rw [mem_cols]
      omega

/-- Row 1 reaches further than row 3. -/
theorem writesAt_outside_rows_3_1 :
    ∃ ops, planRows 1 0 [⟨3, 1, 2⟩, ⟨1, 2, 4⟩] = .ok ops ∧ writesAt (3, 3) ops = [] := by
  obtain ⟨ops, hops⟩ := exists_ok_of_isOk
    (show (planRows 1 0 [⟨3, 1, 2⟩, ⟨1, 2, 4⟩]).isOk = true by decide +kernel)
  exact ⟨ops, hops, writesAt_outside hops (by simp)⟩

end AieHlc.Control
