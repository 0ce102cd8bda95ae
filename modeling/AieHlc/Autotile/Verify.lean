import AieHlc.Autotile.Trace
import Mathlib.Data.Finset.Prod
import Mathlib.Data.Int.ConditionallyCompleteOrder
import Mathlib.Data.Int.Interval
import Mathlib.Order.ConditionallyCompleteLattice.Basic

/-!
# Kernel block verification is sound

`fitPort` returns a fit exactly when every core takes as many blocks of one shape as
core `(0, 0)`, along two common steps and from a base affine in the core's position.
With the origin check and the comparison, the blocks are then the derived DMA's.

* `Fitted`: what a returned fit says of the events.
* `fitPort_eq_ok_iff`: `fitPort` returns exactly the fits of fitted events.
* `Fitted.mem_seqCores`: with all cores counted, every core of the mesh takes blocks.
* `checkPort_sound`: the blocks of a port that passes are the derived DMA's.
-/

namespace AieHlc.Autotile

open List

variable {core : ℤ × ℤ} {rj r : ℕ}

variable {port : TracePort} {events : List Event} {rows cols : ℤ} {c : Conv2dSpec} {d : Derived}
  {why : String}

/-- The events of a kernel that takes exactly the blocks of a fit, core after core. -/
def dmaEvents (port : TracePort) (f : PortFit) (rows cols : ℤ) : List Event :=
  (range rows.toNat).flatMap fun p0 : ℕ => (range cols.toNat).flatMap fun p1 : ℕ =>
    (range (f.roundsI.toNat * f.roundsJ.toNat)).map fun r : ℕ =>
      { kind := if port.output then .S else .L
        p0, p1
        n := r
        rs := f.rank
        port := port.var
        off := fun k => f.offset p0 p1 ((r : ℤ) / f.roundsJ) ((r : ℤ) % f.roundsJ) k
        shape := fun k => f.shape.getD k 0 }

theorem mem_seqCores : core ∈ seqCores port events ↔ ∃ e ∈ events, e.uses port ∧ e.core = core := by
  simp only [seqCores, mem_insertionSort, mem_dedup, mem_map, mem_filter,
    decide_eq_true_eq]
  constructor
  · rintro ⟨e, ⟨he, hu⟩, hc⟩
    exact ⟨e, he, hu, hc⟩
  · rintro ⟨e, he, hu, hc⟩
    exact ⟨e, ⟨he, hu⟩, hc⟩

theorem nodup_seqCores : (seqCores port events).Nodup := by
  apply (perm_insertionSort _ _).nodup_iff.2
  exact nodup_dedup _

def OnMesh (events : List Event) (rows cols : ℤ) : Prop :=
  ∀ e ∈ events, e.p0 ∈ Set.Ico 0 rows ∧ e.p1 ∈ Set.Ico 0 cols

theorem onMesh_dmaEvents (f : PortFit) : OnMesh (dmaEvents port f rows cols) rows cols := by
  intro e he
  simp only [dmaEvents, mem_flatMap, mem_map, mem_range] at he
  obtain ⟨p0, hp0, p1, hp1, r, -, rfl⟩ := he
  exact ⟨⟨by simp, by simp; omega⟩, ⟨by simp, by simp; omega⟩⟩

def mesh (rows cols : ℤ) : Finset (ℤ × ℤ) :=
  @Finset.Ico ℤ _ Int.instLocallyFiniteOrder 0 rows ×ˢ @Finset.Ico ℤ _ Int.instLocallyFiniteOrder 0 cols

theorem mem_mesh : core ∈ mesh rows cols ↔ core.1 ∈ Set.Ico 0 rows ∧ core.2 ∈ Set.Ico 0 cols := by
  simp [mesh]

theorem card_mesh (hr : 0 ≤ rows) (hc : 0 ≤ cols) : ((mesh rows cols).card : ℤ) = rows * cols := by
  rw [mesh, Finset.card_product, Int.card_Ico, Int.card_Ico]
  push_cast
  rw [sub_zero, sub_zero, Int.toNat_of_nonneg hr, Int.toNat_of_nonneg hc]

theorem seqCores_subset (hm : OnMesh events rows cols) :
    (seqCores port events).toFinset ⊆ mesh rows cols := by
  intro core hcore
  obtain ⟨e, he, -, rfl⟩ := mem_seqCores.1 (mem_toFinset.1 hcore)
  exact mem_mesh.2 (hm e he)

/-- The cores are only counted, which is enough: no core outside the mesh is recorded. -/
theorem seqCores_eq_mesh (hm : OnMesh events rows cols) (hne : seqCores port events ≠ []) :
    ((seqCores port events).length : ℤ) = rows * cols ↔
      (seqCores port events).toFinset = mesh rows cols := by
  obtain ⟨core, hcore⟩ := exists_mem_of_ne_nil _ hne
  have hmem := mem_mesh.1 (seqCores_subset hm (mem_toFinset.2 hcore))
  have hcard : (seqCores port events).toFinset.card = (seqCores port events).length :=
    toFinset_card_of_nodup nodup_seqCores
  have hcm : ((mesh rows cols).card : ℤ) = rows * cols :=
    card_mesh (hmem.1.1.trans hmem.1.2.le) (hmem.2.1.trans hmem.2.2.le)
  constructor
  · intro hlen
    apply Finset.eq_of_subset_of_card_le (seqCores_subset hm)
    omega
  · intro heq
    rw [← hcard, heq, hcm]

/-- What a returned fit says of the events, with `rj` inner rounds. -/
structure Fitted (port : TracePort) (events : List Event) (rows cols : ℤ) (rj : ℕ) : Prop where
  used : seqCores port events ≠ []
  cores : ((seqCores port events).length : ℤ) = rows * cols
  count : ∀ core ∈ seqCores port events, (seqAt port events core).length = blockCount port events
  shape : ∀ core ∈ seqCores port events, ∀ e ∈ seqAt port events core,
    e.shape = (blockAt port events (0, 0) 0).shape
  pick : pickRounds port events = some rj
  rank_pos : 0 < blockRank port events
  base : ∀ core ∈ seqCores port events, ∀ k < blockRank port events,
    offAt port events core 0 k =
      offAt port events (0, 0) 0 k + core.1 * rowBase port events rows k + core.2 * colBase port events cols k

theorem shapeError_eq_none :
    shapeError port events = none ↔
      ∀ core ∈ seqCores port events, (seqAt port events core).length = blockCount port events ∧
        ∀ e ∈ seqAt port events core, e.shape = (blockAt port events (0, 0) 0).shape := by
  simp only [shapeError, findSome?_eq_none_iff]
  refine forall₂_congr fun core _ => ?_
  by_cases hn : (seqAt port events core).length = blockCount port events
  · simp [hn]
  · simp [hn]

theorem baseError_eq_none :
    baseError port events rows cols = none ↔
      ∀ core ∈ seqCores port events, ∀ k < blockRank port events,
        offAt port events core 0 k =
          offAt port events (0, 0) 0 k + core.1 * rowBase port events rows k +
            core.2 * colBase port events cols k := by
  simp [baseError, findSome?_eq_none_iff]

/-- **`fitPort` returns exactly the fits of fitted events.** -/
theorem fitPort_eq_ok_iff {f : PortFit} {origin : List ℤ} :
    fitPort port events rows cols = .ok (f, origin) ↔
      ∃ rj, Fitted port events rows cols rj ∧ f = fitWith port events rows cols rj ∧
        origin = fitOrigin port events := by
  unfold fitPort
  by_cases hne : seqCores port events = []
  · rw [if_pos hne]
    refine iff_of_false (by simp) ?_
    rintro ⟨rj, h, -⟩
    exact h.used hne
  rw [if_neg hne]
  by_cases hlen : ((seqCores port events).length : ℤ) = rows * cols
  swap
  · rw [if_pos hlen]
    refine iff_of_false (by simp) ?_
    rintro ⟨rj, h, -⟩
    exact hlen h.cores
  rw [if_neg (not_not.2 hlen)]
  cases hs : shapeError port events with
  | some err =>
    refine iff_of_false (by simp) ?_
    rintro ⟨rj, h, -⟩
    have hnone := shapeError_eq_none.2 fun core hc => ⟨h.count core hc, h.shape core hc⟩
    exact absurd (hs.symm.trans hnone) (by simp)
  | none =>
    have hshape := shapeError_eq_none.1 hs
    cases hp : pickRounds port events with
    | none =>
      refine iff_of_false (by simp) ?_
      rintro ⟨rj, h, -⟩
      exact absurd (hp.symm.trans h.pick) (by simp)
    | some rj =>
      dsimp only
      by_cases hr : blockRank port events = 0
      · rw [if_pos hr]
        refine iff_of_false (by simp) ?_
        rintro ⟨rj, h, -⟩
        exact h.rank_pos.ne' hr
      rw [if_neg hr]
      cases hb : baseError port events rows cols with
      | some err =>
        refine iff_of_false (by simp) ?_
        rintro ⟨rj, h, -⟩
        exact absurd (hb.symm.trans (baseError_eq_none.2 h.base)) (by simp)
      | none =>
        have hbase := baseError_eq_none.1 hb
        simp only [Except.ok.injEq, Prod.mk.injEq]
        constructor
        · rintro ⟨rfl, rfl⟩
          exact ⟨rj, ⟨hne, hlen, fun core hc => (hshape core hc).1, fun core hc => (hshape core hc).2, hp,
            Nat.pos_of_ne_zero hr, hbase⟩, rfl, rfl⟩
        · rintro ⟨rj', h, rfl, rfl⟩
          obtain rfl : rj = rj' := Option.some.inj (hp.symm.trans h.pick)
          exact ⟨rfl, rfl⟩

theorem pickRounds_spec (h : pickRounds port events = some rj) :
    0 < rj ∧ rj * (blockCount port events / rj) = blockCount port events ∧ affine port events rj := by
  have hmem := mem_of_find?_eq_some h
  have hp := find?_some h
  simp only [decide_eq_true_eq] at hp
  obtain ⟨i, hi, rfl⟩ := mem_map.1 hmem
  have hlt := mem_range.1 hi
  exact ⟨by omega, Nat.mul_div_cancel' (Nat.dvd_of_mod_eq_zero hp.1), hp.2⟩

theorem getD_map_range {f : ℕ → ℤ} {n k : ℕ} (hk : k < n) : ((range n).map f).getD k 0 = f k := by
  simp [getD_eq_getElem?_getD, hk]

theorem blockAt_mem (hr : r < (seqAt port events core).length) :
    blockAt port events core r ∈ seqAt port events core := by
  rw [blockAt, getD_eq_getElem?_getD, getElem?_eq_getElem hr]
  exact getElem_mem hr

theorem originErrors_eq_nil : originErrors port (fitOrigin port events) = [] ↔
    ∀ k < blockRank port events, offAt port events (0, 0) 0 k = 0 := by
  rw [originErrors, complain_eq_nil, fitOrigin, firstDims]
  simp [offAt]

/-- No finding: the port is fitted, starts at the origin and agrees with the DMA. -/
theorem checkPort_eq_nil :
    checkPort port events rows cols c d why = [] ↔
      ∃ rj, Fitted port events rows cols rj ∧
        (∀ k < blockRank port events, offAt port events (0, 0) 0 k = 0) ∧
        Agree (fitWith port events rows cols rj) (expectedFit port.role c d) := by
  unfold checkPort
  cases hf : fitPort port events rows cols with
  | error err =>
    refine iff_of_false (by simp) ?_
    rintro ⟨rj, h, -⟩
    exact absurd (hf.symm.trans (fitPort_eq_ok_iff.2 ⟨rj, h, rfl, rfl⟩)) (by simp)
  | ok r =>
    obtain ⟨f, origin⟩ := r
    obtain ⟨rj, h, rfl, rfl⟩ := fitPort_eq_ok_iff.1 hf
    simp only [append_eq_nil_iff, originErrors_eq_nil, compareFit_eq_nil]
    constructor
    · rintro ⟨h0, hag⟩
      exact ⟨rj, h, h0, hag⟩
    · rintro ⟨rj', h', h0, hag⟩
      obtain rfl : rj = rj' := Option.some.inj (h.pick.symm.trans h'.pick)
      exact ⟨h0, hag⟩

theorem Fitted.mem_seqCores (h : Fitted port events rows cols rj) (hm : OnMesh events rows cols)
    (hcore : core ∈ mesh rows cols) : core ∈ seqCores port events := by
  rw [← (seqCores_eq_mesh hm h.used).1 h.cores] at hcore
  exact mem_toFinset.1 hcore

/-- Rounds beyond the first are taken only where there are several, so a step that is
not compared is not used either. -/
theorem mul_step_eq {m : ℕ} {a b : ℤ} (hr : r < rj * m) (h : 1 < m → a = b) :
    ((r / rj : ℕ) : ℤ) * a = ((r / rj : ℕ) : ℤ) * b := by
  rcases lt_or_ge 1 m with hm | hm
  · rw [h hm]
  · have hlt : r < rj := hr.trans_le (by simpa using Nat.mul_le_mul_left rj hm)
    simp [Nat.div_eq_of_lt hlt]

theorem mod_step_eq {a b : ℤ} (hrj : 0 < rj) (h : 1 < rj → a = b) :
    ((r % rj : ℕ) : ℤ) * a = ((r % rj : ℕ) : ℤ) * b := by
  rcases lt_or_ge 1 rj with hm | hm
  · rw [h hm]
  · obtain rfl : rj = 1 := by omega
    simp [Nat.mod_one]

/-- An agreeing fit gives every recorded offset, not only those it was read from. -/
theorem Fitted.off_eq {w : PortFit} (h : Fitted port events rows cols rj)
    (h0 : ∀ k < blockRank port events, offAt port events (0, 0) 0 k = 0)
    (ha : Agree (fitWith port events rows cols rj) w) (hcore : core ∈ seqCores port events)
    (hr : r < blockCount port events) {k : ℕ} (hk : k < w.rank) :
    offAt port events core r k = w.offset core.1 core.2 ((r / rj : ℕ) : ℤ) ((r % rj : ℕ) : ℤ) k := by
  obtain ⟨hrj, hmul, haff⟩ := pickRounds_spec h.pick
  have hrank : blockRank port events = w.rank := ha.rank
  have hroundsI : ((blockCount port events / rj : ℕ) : ℤ) = w.roundsI := ha.roundsI
  have hroundsJ : ((rj : ℕ) : ℤ) = w.roundsJ := ha.roundsJ
  have hk' : k < blockRank port events := hrank ▸ hk
  have hb0 : rowBase port events rows k = w.baseP0.getD k 0 := by
    rw [← ha.baseP0]
    exact (getD_map_range hk').symm
  have hb1 : colBase port events cols k = w.baseP1.getD k 0 := by
    rw [← ha.baseP1]
    exact (getD_map_range hk').symm
  have hI : 1 < blockCount port events / rj → outerStep port events rj k = w.stepI.getD k 0 := by
    intro hlt
    rw [← ha.stepI (by omega)]
    exact (getD_map_range hk').symm
  have hJ : 1 < rj → innerStep port events rj k = w.stepJ.getD k 0 := by
    intro hlt
    rw [← ha.stepJ (by omega)]
    exact (getD_map_range hk').symm
  rw [haff core hcore r hr k hk', h.base core hcore k hk', h0 k hk', hb0, hb1,
    mul_step_eq (by rwa [hmul]) hI, mod_step_eq hrj hJ, PortFit.offset, zero_add]

/-- **Kernel block verification is sound.** If a port's checks report nothing, every core of
the mesh takes as many blocks as the derived DMA sends, and block `r` has the shape and
the offset of round `(r / rounds_j, r % rounds_j)`. -/
theorem checkPort_sound (port : TracePort) (events : List Event) (rows cols : ℤ) (c : Conv2dSpec)
    (d : Derived) (why : String) (hm : OnMesh events rows cols)
    (hnil : checkPort port events rows cols c d why = []) (w : PortFit)
    (hw : expectedFit port.role c d = w) (p0 p1 : ℤ) (hp0 : p0 ∈ Set.Ico 0 rows)
    (hp1 : p1 ∈ Set.Ico 0 cols) :
    ((seqAt port events (p0, p1)).length : ℤ) = w.roundsI * w.roundsJ ∧
      ∀ r < (seqAt port events (p0, p1)).length, ∀ k < w.rank,
        entry (blockAt port events (p0, p1) r).shape k = w.shape.getD k 0 ∧
          entry (blockAt port events (p0, p1) r).off k =
            p0 * w.baseP0.getD k 0 + p1 * w.baseP1.getD k 0 + ((r : ℤ) / w.roundsJ) * w.stepI.getD k 0 +
              ((r : ℤ) % w.roundsJ) * w.stepJ.getD k 0 := by
  subst hw
  obtain ⟨rj, h, h0, ha⟩ := checkPort_eq_nil.1 hnil
  obtain ⟨hrj, hmul, -⟩ := pickRounds_spec h.pick
  have hcore : (p0, p1) ∈ seqCores port events := h.mem_seqCores hm (mem_mesh.2 ⟨hp0, hp1⟩)
  have hcount := h.count _ hcore
  have hJ : ((rj : ℕ) : ℤ) = (expectedFit port.role c d).roundsJ := ha.roundsJ
  have hI : ((blockCount port events / rj : ℕ) : ℤ) = (expectedFit port.role c d).roundsI := ha.roundsI
  refine ⟨?_, ?_⟩
  · rw [hcount, ← hI, ← hJ, mul_comm]
    exact_mod_cast hmul.symm
  · intro r hr k hk
    refine ⟨?_, ?_⟩
    · have hrank : blockRank port events = (expectedFit port.role c d).rank := ha.rank
      rw [h.shape _ hcore _ (blockAt_mem hr), ← ha.shape k hk]
      exact (getD_map_range (hrank ▸ hk)).symm
    · have hoff := h.off_eq h0 ha hcore (hcount ▸ hr) hk
      rw [← hJ, ← Int.natCast_div, ← Int.natCast_mod]
      exact hoff

/-- Rounds of a 4x4 output on a 2x2 mesh, one output a round. -/
def smallDerived : Derived :=
  { meshRows := 2, meshCols := 2, ohMesh := 2, ocMesh := 1, ohT := 1, owT := 2, hRounds := 2, wRounds := 2 }

def smallPort : TracePort := { var := "y", role := .OFM, output := true }

theorem checkPort_sound_small :
    ((seqAt smallPort (dmaEvents smallPort (expectedFit .OFM {} smallDerived) 2 2) (1, 1)).length :
      ℤ) = 2 * 2 :=
  (checkPort_sound smallPort (dmaEvents smallPort (expectedFit .OFM {} smallDerived) 2 2) 2 2
    {} smallDerived ""
    (onMesh_dmaEvents _) (by decide +kernel) _ rfl 1 1 (by decide) (by decide)).1

end AieHlc.Autotile
