import AieHlc.Autotile.Geometry
import AieHlc.Autotile.Verify
import Mathlib.Tactic.IntervalCases

/-!
# Which correct kernels are accepted

A kernel whose every core takes exactly the blocks of a fit. `fitPort` always finds an
affine form of them, but not always the DMA's: on a single mesh row or column there
is no neighbour to read a base from, and the search prefers inner rounds, so a
sequence with one inner round is read as one outer round.

* `Follows`: each core takes exactly the blocks of a fit.
* `Follows.accepted_iff`: such a port is accepted exactly when the bases can be read
  and no larger inner round count fits.
* `kernel_accepted_iff`: the same of the three ports of a kernel.
-/

namespace AieHlc.Autotile

open List

variable {rj k : ℕ} {core : ℤ × ℤ}

/-- The block a fit delivers to a core in round `r`. -/
def Delivers (f : PortFit) (core : ℤ × ℤ) (r : ℕ) (e : Event) : Prop :=
  e.rs = f.rank ∧ (∀ k : Fin 4, e.shape k = f.shape.getD k 0) ∧
    ∀ k < f.rank, entry e.off k = f.offset core.1 core.2 ((r : ℤ) / f.roundsJ) ((r : ℤ) % f.roundsJ) k

instance (f : PortFit) (core : ℤ × ℤ) (r : ℕ) (e : Event) : Decidable (Delivers f core r e) := by
  unfold Delivers
  infer_instance

/-- Each core of the mesh takes exactly the blocks of the fit, in order. -/
structure Follows (port : TracePort) (events : List Event) (rows cols : ℤ) (f : PortFit) : Prop where
  onMesh : OnMesh events rows cols
  count : ∀ core ∈ mesh rows cols,
    (seqAt port events core).length = f.roundsI.toNat * f.roundsJ.toNat
  block : ∀ core ∈ mesh rows cols, ∀ r < f.roundsI.toNat * f.roundsJ.toNat,
    Delivers f core r (blockAt port events core r)

/-- Fitting the port succeeds and the comparison reports nothing. -/
def Accepts (port : TracePort) (events : List Event) (rows cols : ℤ) (c : Conv2dSpec) (d : Derived)
    (why : String) : Prop :=
  ∃ f origin, fitPort port events rows cols = .ok (f, origin) ∧
    compareFit port f (expectedFit port.role c d) why = []

variable {port : TracePort} {events : List Event} {rows cols : ℤ} {c : Conv2dSpec} {d : Derived}
  {why : String} {f : PortFit}

theorem accepts_iff : Accepts port events rows cols c d why ↔
    ∃ rj, Fitted port events rows cols rj ∧
      Agree (fitWith port events rows cols rj) (expectedFit port.role c d) := by
  constructor
  · rintro ⟨f, origin, hf, hcmp⟩
    obtain ⟨rj, h, rfl, rfl⟩ := fitPort_eq_ok_iff.1 hf
    exact ⟨rj, h, compareFit_eq_nil.1 hcmp⟩
  · rintro ⟨rj, h, hag⟩
    exact ⟨_, _, fitPort_eq_ok_iff.2 ⟨rj, h, rfl, rfl⟩, compareFit_eq_nil.2 hag⟩

theorem pickRounds_eq_some_iff : pickRounds port events = some rj ↔
    0 < rj ∧ rj ∣ blockCount port events ∧ rj ≤ blockCount port events ∧ affine port events rj ∧
      ∀ rj', rj < rj' → rj' ≤ blockCount port events → rj' ∣ blockCount port events →
        ¬affine port events rj' := by
  unfold pickRounds
  generalize blockCount port events = n
  rw [find?_map, Option.map_eq_some_iff]
  simp only [find?_range_eq_some, Function.comp, decide_eq_true_eq, mem_range,
    Bool.not_eq_true', decide_eq_false_iff_not, ← Nat.dvd_iff_mod_eq_zero]
  constructor
  · rintro ⟨i, ⟨⟨hdvd, haff⟩, hi, hmin⟩, rfl⟩
    refine ⟨by omega, hdvd, by omega, haff, fun rj' hlt hle hdvd' haff' => ?_⟩
    apply hmin (n - rj') (by omega)
    rw [Nat.sub_sub_self hle]
    exact ⟨hdvd', haff'⟩
  · rintro ⟨hpos, hdvd, hle, haff, hmax⟩
    refine ⟨n - rj, ⟨?_, by omega, fun j hj => ?_⟩, Nat.sub_sub_self hle⟩
    · rw [Nat.sub_sub_self hle]
      exact ⟨hdvd, haff⟩
    · rintro ⟨hdvd', haff'⟩
      exact hmax (n - j) (by omega) (by omega) hdvd' haff'

/-- Vectors of a fit have its rank, which is that of a recorded block. -/
structure PortFit.Shaped (f : PortFit) : Prop where
  rank_pos : 0 < f.rank
  rank_le : f.rank ≤ 4
  baseP0 : f.baseP0.length = f.rank
  baseP1 : f.baseP1.length = f.rank
  stepI : f.stepI.length = f.rank
  stepJ : f.stepJ.length = f.rank

theorem expectedFit_shaped (role : Role) (c : Conv2dSpec) (d : Derived) : (expectedFit role c d).Shaped := by
  cases role <;> exact ⟨by simp [expectedFit], by simp [expectedFit], rfl, rfl, rfl, rfl⟩

theorem map_range_eq_iff {g : ℕ → ℤ} {n : ℕ} {l : List ℤ} (hl : l.length = n) :
    (range n).map g = l ↔ ∀ k < n, g k = l.getD k 0 := by
  constructor
  · rintro rfl k hk
    exact (getD_map_range hk).symm
  · intro h
    apply ext_getElem (by simp [hl])
    intro k hk hk'
    have := h k (hl ▸ hk')
    rw [getElem_map, getElem_range, this, getD_eq_getElem?_getD, getElem?_eq_getElem hk']
    rfl

namespace Follows

theorem mem_seqCores (h : Follows port events rows cols f) (hn : 0 < f.roundsI.toNat * f.roundsJ.toNat) :
    core ∈ seqCores port events ↔ core ∈ mesh rows cols := by
  constructor
  · intro hc
    exact seqCores_subset h.onMesh (mem_toFinset.2 hc)
  · intro hc
    have hlen := h.count core hc
    obtain ⟨e, he⟩ := exists_mem_of_length_pos (hlen ▸ hn)
    simp only [seqAt, mem_filter, decide_eq_true_eq] at he
    exact AieHlc.Autotile.mem_seqCores.2 ⟨e, he⟩

theorem zero_mem_mesh (hr : 0 < rows) (hc : 0 < cols) : ((0, 0) : ℤ × ℤ) ∈ mesh rows cols :=
  mem_mesh.2 ⟨⟨le_rfl, hr⟩, ⟨le_rfl, hc⟩⟩

section

variable (h : Follows port events rows cols f)

include h

theorem blockCount_eq (hr : 0 < rows) (hc : 0 < cols) :
    blockCount port events = f.roundsI.toNat * f.roundsJ.toNat :=
  h.count _ (zero_mem_mesh hr hc)

theorem blockRank_eq (hr : 0 < rows) (hc : 0 < cols) (hn : 0 < f.roundsI.toNat * f.roundsJ.toNat) :
    blockRank port events = f.rank :=
  (h.block _ (zero_mem_mesh hr hc) 0 hn).1

section

variable (hJ : 0 < f.roundsJ)

include hJ

theorem offAt_eq (hcore : core ∈ mesh rows cols) {r : ℕ} (hr : r < f.roundsI.toNat * f.roundsJ.toNat)
    (hk : k < f.rank) :
    offAt port events core r k =
      f.offset core.1 core.2 ((r / f.roundsJ.toNat : ℕ) : ℤ) ((r % f.roundsJ.toNat : ℕ) : ℤ) k := by
  rw [Int.natCast_div, Int.natCast_mod, Int.toNat_of_nonneg hJ.le]
  exact (h.block core hcore r hr).2.2 k hk

theorem offAt_zero (hn : 0 < f.roundsI.toNat * f.roundsJ.toNat) (hcore : core ∈ mesh rows cols)
    (hk : k < f.rank) :
    offAt port events core 0 k = core.1 * f.baseP0.getD k 0 + core.2 * f.baseP1.getD k 0 := by
  rw [h.offAt_eq hJ hcore hn hk, PortFit.offset]
  simp

theorem offAt_sub (hcore : core ∈ mesh rows cols) {r : ℕ} (hr : r < f.roundsI.toNat * f.roundsJ.toNat)
    (hk : k < f.rank) :
    offAt port events core r k = offAt port events core 0 k +
      ((r / f.roundsJ.toNat : ℕ) : ℤ) * f.stepI.getD k 0 + ((r % f.roundsJ.toNat : ℕ) : ℤ) *
      f.stepJ.getD k 0 := by
  rw [h.offAt_zero hJ (by omega) hcore hk, h.offAt_eq hJ hcore hr hk, PortFit.offset]

theorem rowBase_eq (hn : 0 < f.roundsI.toNat * f.roundsJ.toNat) (hr : 0 < rows) (hc : 0 < cols)
    (hk : k < f.rank) :
    rowBase port events rows k = if rows > 1 then f.baseP0.getD k 0 else 0 := by
  unfold rowBase
  split_ifs with hrows
  · have h1 : ((1, 0) : ℤ × ℤ) ∈ mesh rows cols := mem_mesh.2 ⟨⟨zero_le_one, hrows⟩, ⟨le_rfl, hc⟩⟩
    rw [h.offAt_zero hJ hn h1 hk, h.offAt_zero hJ hn (zero_mem_mesh hr hc) hk]
    ring
  · rfl

theorem colBase_eq (hn : 0 < f.roundsI.toNat * f.roundsJ.toNat) (hr : 0 < rows) (hc : 0 < cols)
    (hk : k < f.rank) :
    colBase port events cols k = if cols > 1 then f.baseP1.getD k 0 else 0 := by
  unfold colBase
  split_ifs with hcols
  · have h1 : ((0, 1) : ℤ × ℤ) ∈ mesh rows cols := mem_mesh.2 ⟨⟨le_rfl, hr⟩, ⟨zero_le_one, hcols⟩⟩
    rw [h.offAt_zero hJ hn h1 hk, h.offAt_zero hJ hn (zero_mem_mesh hr hc) hk]
    ring
  · rfl

theorem outerStep_self (hr : 0 < rows) (hc : 0 < cols) (hk : k < f.rank)
    (hlt : 1 < blockCount port events / f.roundsJ.toNat) :
    outerStep port events f.roundsJ.toNat k = f.stepI.getD k 0 := by
  have hJ' : 0 < f.roundsJ.toNat := by omega
  have hn : f.roundsJ.toNat < f.roundsI.toNat * f.roundsJ.toNat := by
    rw [h.blockCount_eq hr hc, Nat.mul_div_cancel _ hJ'] at hlt
    exact lt_mul_of_one_lt_left hJ' hlt
  rw [outerStep, if_pos hlt, h.offAt_sub hJ (zero_mem_mesh hr hc) hn hk, Nat.div_self hJ', Nat.mod_self]
  simp

theorem innerStep_eq (hr : 0 < rows) (hc : 0 < cols) (hk : k < f.rank) (hrj : 1 < rj)
    (hle : rj ≤ blockCount port events) :
    innerStep port events rj k = if 1 < f.roundsJ.toNat then f.stepJ.getD k 0 else f.stepI.getD k 0 := by
  rw [h.blockCount_eq hr hc] at hle
  rw [innerStep, if_pos hrj, h.offAt_sub hJ (zero_mem_mesh hr hc) (by omega) hk]
  split_ifs with hlt
  · rw [Nat.div_eq_of_lt hlt, Nat.mod_eq_of_lt hlt]
    simp
  · obtain hone : f.roundsJ.toNat = 1 := by omega
    simp [hone]

end

/-- The blocks are affine in the fit's own rounds. -/
theorem affine_self (hI : 0 < f.roundsI) (hJ : 0 < f.roundsJ) (hr : 0 < rows) (hc : 0 < cols) :
    affine port events f.roundsJ.toNat := by
  have hJ' : 0 < f.roundsJ.toNat := by omega
  have hn : 0 < f.roundsI.toNat * f.roundsJ.toNat := Nat.mul_pos (by omega) hJ'
  have hcount := h.blockCount_eq hr hc
  have hle : f.roundsJ.toNat ≤ blockCount port events := by
    rw [hcount]
    exact Nat.le_mul_of_pos_left _ (by omega)
  intro core hcore r hlt k hk
  rw [h.blockRank_eq hr hc hn] at hk
  rw [h.offAt_sub hJ ((h.mem_seqCores hn).1 hcore) (hcount ▸ hlt) hk,
    ← mul_step_eq (by rwa [hcount, Nat.mul_div_cancel _ hJ', mul_comm, ← hcount])
      (h.outerStep_self hJ hr hc hk),
    mod_step_eq hJ' fun hlt' => (h.innerStep_eq hJ hr hc hk hlt' hle).trans (if_pos hlt') |>.symm]

theorem fitted_iff (hs : f.Shaped) (hI : 0 < f.roundsI) (hJ : 0 < f.roundsJ) (hr : 0 < rows) (hc : 0 < cols) :
    Fitted port events rows cols rj ↔ pickRounds port events = some rj := by
  have hn : 0 < f.roundsI.toNat * f.roundsJ.toNat := Nat.mul_pos (by omega) (by omega)
  have h00 := zero_mem_mesh hr hc
  refine ⟨fun h => h.pick, fun hp => ?_⟩
  have hne : seqCores port events ≠ [] := ne_nil_of_mem ((h.mem_seqCores hn).2 h00)
  refine ⟨hne, ?_, ?_, ?_, hp, ?_, ?_⟩
  · apply (seqCores_eq_mesh h.onMesh hne).2
    ext core
    rw [mem_toFinset, h.mem_seqCores hn]
  · intro core hcore
    rw [h.count core ((h.mem_seqCores hn).1 hcore), h.blockCount_eq hr hc]
  · intro core hcore e he
    obtain ⟨r, hlt, rfl⟩ := getElem_of_mem he
    have hm := (h.mem_seqCores hn).1 hcore
    have hb := (h.block core hm r (h.count core hm ▸ hlt)).2.1
    rw [blockAt, getD_eq_getElem?_getD, getElem?_eq_getElem hlt] at hb
    funext k
    exact (hb k).trans ((h.block _ h00 0 hn).2.1 k).symm
  · rw [h.blockRank_eq hr hc hn]
    exact hs.rank_pos
  · intro core hcore k hk
    rw [h.blockRank_eq hr hc hn] at hk
    have hm := (h.mem_seqCores hn).1 hcore
    obtain ⟨⟨hp0, hp0'⟩, ⟨hp1, hp1'⟩⟩ := mem_mesh.1 hm
    rw [h.offAt_zero hJ hn hm hk, h.offAt_zero hJ hn h00 hk, h.rowBase_eq hJ hn hr hc hk,
      h.colBase_eq hJ hn hr hc hk]
    -- without a neighbour the core's own coordinate is 0
    have hrow : core.1 * f.baseP0.getD k 0 = core.1 * (if rows > 1 then f.baseP0.getD k 0 else 0) := by
      split_ifs with hrows
      · rfl
      · rw [show core.1 = 0 by omega]
        simp
    have hcol : core.2 * f.baseP1.getD k 0 = core.2 * (if cols > 1 then f.baseP1.getD k 0 else 0) := by
      split_ifs with hcols
      · rfl
      · rw [show core.2 = 0 by omega]
        simp
    rw [hrow, hcol]
    simp

end

theorem base_agree {b : List ℤ} {n : ℕ} {m : ℤ} (hb : b.length = n) {g : ℕ → ℤ}
    (hg : ∀ k < n, g k = if m > 1 then b.getD k 0 else 0) :
    (range n).map g = b ↔ (m ≤ 1 → ∀ k < n, b.getD k 0 = 0) := by
  rw [map_range_eq_iff hb]
  constructor
  · intro h hm k hk
    rw [← h k hk, hg k hk, if_neg (by omega)]
  · intro h k hk
    rw [hg k hk]
    split_ifs with hm
    · rfl
    · exact (h (by omega) k hk).symm

/-- A base is read from the neighbour; without one it is taken to be 0. -/
theorem agree_self (h : Follows port events rows cols f) (hs : f.Shaped) (hI : 0 < f.roundsI)
    (hJ : 0 < f.roundsJ) (hr : 0 < rows) (hc : 0 < cols) :
    Agree (fitWith port events rows cols f.roundsJ.toNat) f ↔
      (rows ≤ 1 → ∀ k < f.rank, f.baseP0.getD k 0 = 0) ∧
      (cols ≤ 1 → ∀ k < f.rank, f.baseP1.getD k 0 = 0) := by
  have hn : 0 < f.roundsI.toNat * f.roundsJ.toNat := Nat.mul_pos (by omega) (by omega)
  have hrank := h.blockRank_eq hr hc hn
  have hcount := h.blockCount_eq hr hc
  have hdiv : blockCount port events / f.roundsJ.toNat = f.roundsI.toNat := by
    rw [hcount]
    exact Nat.mul_div_cancel _ (by omega)
  have h0 := @base_agree _ _ rows hs.baseP0 _ fun k hk => h.rowBase_eq hJ hn hr hc hk
  have h1 := @base_agree _ _ cols hs.baseP1 _ fun k hk => h.colBase_eq hJ hn hr hc hk
  rw [← h0, ← h1]
  constructor
  · intro ha
    have hb0 := ha.baseP0
    have hb1 := ha.baseP1
    simp only [fitWith, hrank] at hb0 hb1
    exact ⟨hb0, hb1⟩
  · rintro ⟨hb0, hb1⟩
    constructor
    · exact hrank
    · intro k hk
      have hshape := (h.block _ (zero_mem_mesh hr hc) 0 hn).2.1 ⟨k, hk.trans_le hs.rank_le⟩
      simp only [fitWith, firstDims, hrank]
      rw [getD_map_range hk, entry, dif_pos (hk.trans_le hs.rank_le)]
      exact hshape
    · simpa only [fitWith, hrank] using hb0
    · simpa only [fitWith, hrank] using hb1
    · simp only [fitWith, hdiv]
      omega
    · simp only [fitWith]
      omega
    · intro hlt
      simp only [fitWith, hrank]
      rw [map_range_eq_iff hs.stepI]
      exact fun k hk => h.outerStep_self hJ hr hc hk (by omega)
    · intro hlt
      simp only [fitWith, hrank]
      rw [map_range_eq_iff hs.stepJ]
      intro k hk
      have hle : f.roundsJ.toNat ≤ blockCount port events := by
        rw [hcount]
        exact Nat.le_mul_of_pos_left _ (by omega)
      rw [h.innerStep_eq hJ hr hc hk (by omega) hle, if_pos (by omega)]

/-- **When a kernel that follows a fit is accepted**: there are blocks, the search finds the
fit's own inner rounds, and a base is 0 where there is no neighbour to read it from. -/
theorem accepted_iff (h : Follows port events rows cols f) (hs : f.Shaped) (hr : 0 < rows) (hc : 0 < cols) :
    (∃ rj, Fitted port events rows cols rj ∧ Agree (fitWith port events rows cols rj) f) ↔
      0 < f.roundsI ∧ 0 < f.roundsJ ∧ pickRounds port events = some f.roundsJ.toNat ∧
        (rows ≤ 1 → ∀ k < f.rank, f.baseP0.getD k 0 = 0) ∧
        (cols ≤ 1 → ∀ k < f.rank, f.baseP1.getD k 0 = 0) := by
  constructor
  · rintro ⟨rj, hf, ha⟩
    obtain ⟨hrj, hmul, -⟩ := pickRounds_spec hf.pick
    have hroundsJ : ((rj : ℕ) : ℤ) = f.roundsJ := ha.roundsJ
    have hroundsI : ((blockCount port events / rj : ℕ) : ℤ) = f.roundsI := ha.roundsI
    obtain rfl : rj = f.roundsJ.toNat := by omega
    have hpos : 0 < blockCount port events := by
      obtain ⟨core, hcore⟩ := exists_mem_of_ne_nil _ hf.used
      obtain ⟨e, he, hu, hec⟩ := AieHlc.Autotile.mem_seqCores.1 hcore
      rw [← hf.count core hcore]
      exact length_pos_of_mem (mem_filter.2 ⟨he, decide_eq_true ⟨hu, hec⟩⟩)
    have hI : 0 < f.roundsI := by
      have : 0 < blockCount port events / f.roundsJ.toNat :=
        Nat.pos_of_mul_pos_left (by rw [hmul]; exact hpos)
      omega
    have hJ : 0 < f.roundsJ := by omega
    exact ⟨hI, hJ, hf.pick, (h.agree_self hs hI hJ hr hc).1 ha⟩
  · rintro ⟨hI, hJ, hp, hb⟩
    exact ⟨_, (h.fitted_iff hs hI hJ hr hc).2 hp, (h.agree_self hs hI hJ hr hc).2 hb⟩

/-- The search finds the fit's own rounds when there is one outer round, or when a larger
inner count would have to take the outer step, which the inner step never takes. -/
theorem pick_self (h : Follows port events rows cols f) (hI : 0 < f.roundsI) (hJ : 0 < f.roundsJ)
    (hr : 0 < rows) (hc : 0 < cols) (hcase : f.roundsI = 1 ∨
      1 < f.roundsJ ∧ ∃ k < f.rank, f.stepI.getD k 0 ≠ 0 ∧ f.stepJ.getD k 0 = 0) :
    pickRounds port events = some f.roundsJ.toNat := by
  have hcount := h.blockCount_eq hr hc
  have hn : 0 < f.roundsI.toNat * f.roundsJ.toNat := Nat.mul_pos (by omega) (by omega)
  refine pickRounds_eq_some_iff.2 ⟨by omega, ?_, ?_, h.affine_self hI hJ hr hc, ?_⟩
  · rw [hcount]
    exact Nat.dvd_mul_left _ _
  · rw [hcount]
    exact Nat.le_mul_of_pos_left _ (by omega)
  · intro rj hlt hle hdvd haff
    rcases hcase with hone | ⟨hJ1, k, hk, hI0, hJ0⟩
    · rw [hcount, hone, Int.toNat_one, one_mul] at hle
      omega
    · -- round `roundsJ` is the first to take the outer step
      have hlt' : f.roundsJ.toNat < blockCount port events := by omega
      have h00 := zero_mem_mesh hr hc
      have h1 := haff _ ((h.mem_seqCores hn).2 h00) _ hlt' k ((h.blockRank_eq hr hc hn).symm ▸ hk)
      rw [h.offAt_sub hJ h00 (hcount ▸ hlt') hk, Nat.div_self (by omega), Nat.mod_self,
        Nat.div_eq_of_lt hlt, Nat.mod_eq_of_lt hlt, h.innerStep_eq hJ hr hc hk (by omega) hle,
        if_pos (by omega), hJ0] at h1
      simp only [Nat.cast_one, one_mul, Nat.cast_zero, zero_mul, mul_zero, add_zero] at h1
      exact hI0 (by omega)

/-- With one inner round and several outer ones, the search reads the outer rounds as inner. -/
theorem not_pick_self (h : Follows port events rows cols f) (hI : 1 < f.roundsI) (hJ : f.roundsJ = 1)
    (hr : 0 < rows) (hc : 0 < cols) : pickRounds port events ≠ some f.roundsJ.toNat := by
  have hJ' : 0 < f.roundsJ := by omega
  have hone : f.roundsJ.toNat = 1 := by omega
  have hcount := h.blockCount_eq hr hc
  have hn : 1 < blockCount port events := by
    rw [hcount, hone, mul_one]
    omega
  have hn' : 0 < f.roundsI.toNat * f.roundsJ.toNat := by omega
  intro hp
  obtain ⟨-, -, -, -, hmax⟩ := pickRounds_eq_some_iff.1 hp
  refine hmax (blockCount port events) (by omega) le_rfl dvd_rfl ?_
  intro core hcore r hlt k hk
  rw [h.blockRank_eq hr hc hn'] at hk
  rw [h.offAt_sub hJ' ((h.mem_seqCores hn').1 hcore) (hcount ▸ hlt) hk, Nat.div_eq_of_lt hlt,
    Nat.mod_eq_of_lt hlt, h.innerStep_eq hJ' hr hc hk hn le_rfl, if_neg (by omega), hone, Nat.div_one,
    Nat.mod_one]
  simp

end Follows

/-- The steps of a role's rounds are apart: rows for the outer round, columns for the inner. -/
theorem Geometry.outer_ne {c : Conv2dSpec} {m : MappingSpec} {d : Derived} (g : Geometry c m d)
    (hs : 0 < c.stride) (role : Role) (hrole : role ≠ .WEIGHTS) :
    ∃ k < (expectedFit role c d).rank,
      (expectedFit role c d).stepI.getD k 0 ≠ 0 ∧ (expectedFit role c d).stepJ.getD k 0 = 0 := by
  have hstep : 0 < d.tileStepH := g.tileStepH ▸ mul_pos g.ohT_pos hs
  have hT := g.ohT_pos
  cases role with
  | WEIGHTS => exact absurd rfl hrole
  | IFM => exact ⟨0, by simp [expectedFit], by simp [expectedFit]; omega, by simp [expectedFit]⟩
  | OFM => exact ⟨0, by simp [expectedFit], by simp [expectedFit]; omega, by simp [expectedFit]⟩

theorem forall_lt_three {p : ℕ → Prop} : (∀ k < 3, p k) ↔ p 0 ∧ p 1 ∧ p 2 :=
  ⟨fun h => ⟨h 0 (by decide), h 1 (by decide), h 2 (by decide)⟩, fun h k hk => by
    interval_cases k
    exacts [h.1, h.2.1, h.2.2]⟩

theorem forall_lt_four {p : ℕ → Prop} : (∀ k < 4, p k) ↔ p 0 ∧ p 1 ∧ p 2 ∧ p 3 :=
  ⟨fun h => ⟨h 0 (by decide), h 1 (by decide), h 2 (by decide), h 3 (by decide)⟩, fun h k hk => by
    interval_cases k
    exacts [h.1, h.2.1, h.2.2.1, h.2.2.2]⟩

/-- The rounds of a derivation that the search reads as they are. -/
def RoundsRead (d : Derived) : Prop :=
  0 < d.hRounds ∧ 0 < d.wRounds ∧ (d.hRounds = 1 ∨ 1 < d.wRounds)

section Roles

variable {c : Conv2dSpec} {m : MappingSpec} {d : Derived} {port : TracePort} {events : List Event}
    {why : String}

theorem rounds_read (g : Geometry c m d) (hs : 0 < c.stride) (role : Role) (hrole : role ≠ .WEIGHTS)
    (h : Follows port events d.meshRows d.meshCols (expectedFit role c d)) :
    (0 < d.hRounds ∧ 0 < d.wRounds ∧
      pickRounds port events = some (expectedFit role c d).roundsJ.toNat) ↔ RoundsRead d := by
  have hI : (expectedFit role c d).roundsI = d.hRounds := by cases role <;> simp_all [expectedFit]
  have hJ : (expectedFit role c d).roundsJ = d.wRounds := by cases role <;> simp_all [expectedFit]
  constructor
  · rintro ⟨hh, hw, hp⟩
    refine ⟨hh, hw, ?_⟩
    by_contra hcon
    exact h.not_pick_self (by omega) (by omega) g.meshRows_pos g.meshCols_pos hp
  · rintro ⟨hh, hw, hcase⟩
    refine ⟨hh, hw, h.pick_self (by omega) (by omega) g.meshRows_pos g.meshCols_pos ?_⟩
    rcases hcase with hone | hlt
    · exact Or.inl (by omega)
    · exact Or.inr ⟨by omega, g.outer_ne hs role hrole⟩

theorem ifm_accepted (g : Geometry c m d) (hs : 0 < c.stride)
    (h : Follows port events d.meshRows d.meshCols (expectedFit .IFM c d)) :
    (∃ rj, Fitted port events d.meshRows d.meshCols rj ∧
      Agree (fitWith port events d.meshRows d.meshCols rj) (expectedFit .IFM c d)) ↔
      1 < d.meshRows ∧ RoundsRead d := by
  rw [h.accepted_iff (expectedFit_shaped _ _ _) g.meshRows_pos g.meshCols_pos,
    ← rounds_read g hs .IFM (by decide) h]
  simp only [expectedFit, forall_lt_three, getD_cons_zero, getD_cons_succ, and_self, and_true,
    implies_true]
  have hmesh : 0 < d.hRounds → d.meshStepH ≠ 0 := by
    intro hh
    rw [g.meshStepH, ← g.hRounds]
    exact (mul_pos (mul_pos hh g.ohT_pos) hs).ne'
  constructor
  · rintro ⟨hh, hw, hp, hb⟩
    refine ⟨?_, hh, hw, hp⟩
    by_contra hcon
    exact hmesh hh (hb (by omega))
  · rintro ⟨hr, hh, hw, hp⟩
    exact ⟨hh, hw, hp, fun hle => by omega⟩

theorem ofm_accepted (g : Geometry c m d) (hs : 0 < c.stride) (hk : 0 < c.k)
    (h : Follows port events d.meshRows d.meshCols (expectedFit .OFM c d)) :
    (∃ rj, Fitted port events d.meshRows d.meshCols rj ∧
      Agree (fitWith port events d.meshRows d.meshCols rj) (expectedFit .OFM c d)) ↔
      1 < d.meshRows ∧ 1 < d.meshCols ∧ RoundsRead d := by
  rw [h.accepted_iff (expectedFit_shaped _ _ _) g.meshRows_pos g.meshCols_pos,
    ← rounds_read g hs .OFM (by decide) h]
  simp only [expectedFit, forall_lt_three, getD_cons_zero, getD_cons_succ, and_true, true_and]
  have hoc := g.ocMesh_pos hk
  have hmesh : 0 < d.hRounds → d.ohMesh ≠ 0 := by
    intro hh
    rw [← g.hRounds]
    exact (mul_pos hh g.ohT_pos).ne'
  constructor
  · rintro ⟨hh, hw, hp, hb0, hb1⟩
    refine ⟨?_, ?_, hh, hw, hp⟩
    · by_contra hcon
      exact hmesh hh (hb0 (by omega))
    · by_contra hcon
      exact hoc.ne' (hb1 (by omega))
  · rintro ⟨hr, hcol, hh, hw, hp⟩
    exact ⟨hh, hw, hp, fun hle => by omega, fun hle => by omega⟩

theorem weights_accepted (g : Geometry c m d) (hk : 0 < c.k)
    (h : Follows port events d.meshRows d.meshCols (expectedFit .WEIGHTS c d)) :
    (∃ rj, Fitted port events d.meshRows d.meshCols rj ∧
      Agree (fitWith port events d.meshRows d.meshCols rj) (expectedFit .WEIGHTS c d)) ↔
      1 < d.meshCols := by
  have hp := h.pick_self one_pos one_pos g.meshRows_pos g.meshCols_pos (Or.inl rfl)
  rw [h.accepted_iff (expectedFit_shaped _ _ _) g.meshRows_pos g.meshCols_pos]
  have hoc := g.ocMesh_pos hk
  constructor
  · rintro ⟨-, -, -, -, hb1⟩
    by_contra hcon
    exact hoc.ne' (hb1 (by omega) 0 (by simp [expectedFit]))
  · intro hcol
    refine ⟨one_pos, one_pos, hp, fun _ => ?_, fun hle => by omega⟩
    simp only [expectedFit, forall_lt_four]
    simp

end Roles

/-- **Which correct kernels are accepted.** A kernel whose three ports take exactly the blocks
the derived DMA delivers is accepted exactly on a mesh of at least two rows and two
columns, with several width rounds or one height round. -/
theorem kernel_accepted_iff (conv : Conv2dSpec) (m : MappingSpec) (tgt : Target) (ov : Overrides)
    (d : Derived)
    (hd : derive conv m tgt ov = d) (hok : d.ok = true) (ifm wgt ofm : TracePort) (hifm : ifm.role = .IFM)
    (hwgt : wgt.role = .WEIGHTS) (hofm : ofm.role = .OFM) (events : List Event) (why : String)
    (hf : ∀ p ∈ [ifm, wgt, ofm], Follows p events d.meshRows d.meshCols (expectedFit p.role conv d)) :
    (∀ p ∈ [ifm, wgt, ofm], Accepts p events d.meshRows d.meshCols conv d why) ↔
      1 < d.meshRows ∧ 1 < d.meshCols ∧ 0 < d.hRounds ∧ 0 < d.wRounds ∧
        (d.hRounds = 1 ∨ 1 < d.wRounds) := by
  subst hd
  obtain ⟨hv, g⟩ := derive_ok hok
  simp only [forall_mem_cons, not_mem_nil, IsEmpty.forall_iff, implies_true, and_true,
    accepts_iff, hifm, hwgt, hofm] at hf ⊢
  obtain ⟨h1, h2, h3⟩ := hf
  rw [ifm_accepted g hv.stride_pos h1, weights_accepted g hv.k_pos h2,
    ofm_accepted g hv.stride_pos hv.k_pos h3, RoundsRead]
  tauto

def convPort (role : Role) : TracePort := { var := role.name, role, output := role = .OFM }

/-- The events of a kernel that takes exactly the blocks of every port. -/
def convEvents (c : Conv2dSpec) (d : Derived) : List Event :=
  [Role.IFM, .WEIGHTS, .OFM].flatMap fun role =>
    dmaEvents (convPort role) (expectedFit role c d) d.meshRows d.meshCols

theorem onMesh_convEvents (c : Conv2dSpec) (d : Derived) :
    OnMesh (convEvents c d) d.meshRows d.meshCols := by
  intro e he
  obtain ⟨role, -, hmem⟩ := mem_flatMap.1 he
  exact onMesh_dmaEvents _ e hmem

theorem kernel_accepted_dilated :
    Accepts (convPort .IFM) (convEvents dilatedConv (derive dilatedConv dilatedMapping {} {})) 2 2 dilatedConv
        (derive dilatedConv dilatedMapping {} {}) "" ∧
      Accepts (convPort .WEIGHTS) (convEvents dilatedConv (derive dilatedConv dilatedMapping {} {})) 2 2
        dilatedConv (derive dilatedConv dilatedMapping {} {}) "" ∧
      Accepts (convPort .OFM) (convEvents dilatedConv (derive dilatedConv dilatedMapping {} {}))
        2 2 dilatedConv
        (derive dilatedConv dilatedMapping {} {}) "" := by
  have h := (kernel_accepted_iff dilatedConv dilatedMapping {} {} _ rfl dilatedConv_ok (convPort .IFM)
    (convPort .WEIGHTS) (convPort .OFM) rfl rfl rfl
      (convEvents dilatedConv (derive dilatedConv dilatedMapping {} {}))
    "" ?_).2 (by decide +kernel)
  · exact ⟨h _ (by simp), h _ (by simp), h _ (by simp)⟩
  simp only [forall_mem_cons, not_mem_nil, IsEmpty.forall_iff, implies_true, and_true]
  refine ⟨⟨onMesh_convEvents _ _, ?_, ?_⟩, ⟨onMesh_convEvents _ _, ?_, ?_⟩,
    ⟨onMesh_convEvents _ _, ?_, ?_⟩⟩ <;>
    decide +kernel

/-- The same convolution on a single mesh row. -/
def rowMapping : MappingSpec :=
  { dilatedMapping with spaceRows := { axis := .OH, factor := 1 } }

/-- The same convolution in one width round, where the target allows it. -/
def tallMapping : MappingSpec :=
  { dilatedMapping with time := [{ axis := .OH, factor := 2 }, { axis := .OW, factor := 8 }] }

/-- Correct kernels that are rejected: for want of a second mesh row, and for want of a
second width round. -/
theorem correct_kernel_rejected :
    (let d := derive dilatedConv rowMapping {} {}
     d.ok = true ∧
      (∀ role, Follows (convPort role) (convEvents dilatedConv d) d.meshRows d.meshCols
        (expectedFit role dilatedConv d)) ∧
      ¬Accepts (convPort .IFM) (convEvents dilatedConv d) d.meshRows d.meshCols dilatedConv d "") ∧
    (let d := derive dilatedConv tallMapping { requireWidthSplit := false } {}
     d.ok = true ∧
      (∀ role, Follows (convPort role) (convEvents dilatedConv d) d.meshRows d.meshCols
        (expectedFit role dilatedConv d)) ∧
      ¬Accepts (convPort .IFM) (convEvents dilatedConv d) d.meshRows d.meshCols dilatedConv d "") := by
  constructor
  · have hok : (derive dilatedConv rowMapping {} {}).ok = true := by decide +kernel
    have hf : ∀ role, Follows (convPort role) (convEvents dilatedConv (derive dilatedConv rowMapping {} {}))
        (derive dilatedConv rowMapping {} {}).meshRows (derive dilatedConv rowMapping {} {}).meshCols
        (expectedFit role dilatedConv (derive dilatedConv rowMapping {} {})) := by
      intro role
      refine ⟨onMesh_convEvents _ _, ?_, ?_⟩ <;> cases role <;> decide +kernel
    refine ⟨hok, hf, ?_⟩
    rw [accepts_iff]
    intro h
    have hrows := ((ifm_accepted (derive_ok hok).2 (by decide) (hf .IFM)).1 h).1
    revert hrows
    decide +kernel
  · have hok : (derive dilatedConv tallMapping { requireWidthSplit := false } {}).ok = true := by
      decide +kernel
    have hf : ∀ role, Follows (convPort role)
        (convEvents dilatedConv (derive dilatedConv tallMapping { requireWidthSplit := false } {}))
        (derive dilatedConv tallMapping { requireWidthSplit := false } {}).meshRows
        (derive dilatedConv tallMapping { requireWidthSplit := false } {}).meshCols
        (expectedFit role dilatedConv
          (derive dilatedConv tallMapping { requireWidthSplit := false } {})) := by
      intro role
      refine ⟨onMesh_convEvents _ _, ?_, ?_⟩ <;> cases role <;> decide +kernel
    refine ⟨hok, hf, ?_⟩
    rw [accepts_iff]
    intro h
    have hrounds := ((ifm_accepted (derive_ok hok).2 (by decide) (hf .IFM)).1 h).2.2.2
    revert hrounds
    decide +kernel

end AieHlc.Autotile
