import Mathlib.Algebra.Order.Ring.Int
import Mathlib.Data.Int.ConditionallyCompleteOrder
import Mathlib.Data.Set.Pairwise.Basic
import Mathlib.Order.CompletePartialOrder
import Mathlib.Order.ConditionallyCompleteLattice.Basic
import Mathlib.Order.Interval.Set.Basic
import Mathlib.Tactic.Ring

/-!
# Tiles of an interval of integers

Consecutive tiles of one size, their index, and nested tiles; families of sets that
partition a set.

* `mem_tile`: a point is in tile `i` exactly when its quotient is `i`.
* `tile_nested`: a tile of a tile is a tile of the finer size.
* `Partitions`, `Partitions.of_index`: a family read off an index function partitions.
-/

namespace AieHlc.Grid

/-- Tile `i` of size `t`. -/
def tile (t i : ℤ) : Set ℤ := Set.Ico (i * t) (i * t + t)

theorem mem_tile {t i y : ℤ} (ht : 0 < t) : y ∈ tile t i ↔ y / t = i := by
  rw [Int.ediv_eq_iff_of_pos ht]
  exact Iff.rfl

theorem tile_nested (t h p i : ℤ) :
    Set.Ico (p * (h * t) + i * t) (p * (h * t) + i * t + t) = tile t (p * h + i) := by
  unfold tile
  rw [show (p * h + i) * t = p * (h * t) + i * t by ring]

theorem digits_iff {h p i q : ℤ} (hi : 0 ≤ i) (hih : i < h) :
    q = p * h + i ↔ q / h = p ∧ q % h = i := by
  have hh : 0 < h := by omega
  constructor
  · rintro rfl
    rw [add_comm, Int.add_mul_ediv_right _ _ hh.ne', Int.add_mul_emod_self_right,
      Int.ediv_eq_zero_of_lt hi hih, Int.emod_eq_of_lt hi hih]
    exact ⟨by ring, rfl⟩
  · rintro ⟨rfl, rfl⟩
    rw [mul_comm]
    exact (Int.mul_ediv_add_emod q h).symm

theorem mem_Ico_tiles {t n y : ℤ} (ht : 0 < t) : y ∈ Set.Ico 0 (n * t) ↔ y / t ∈ Set.Ico 0 n := by
  rw [Set.mem_Ico, Set.mem_Ico, Int.ediv_nonneg_iff_of_pos ht, Int.ediv_lt_iff_lt_mul ht]

theorem mem_Ico_digits {h n q : ℤ} (hn : 0 < n) :
    q ∈ Set.Ico 0 (n * h) ↔ q / h ∈ Set.Ico 0 n ∧ q % h ∈ Set.Ico 0 h := by
  constructor
  · rintro ⟨h0, hlt⟩
    have hh : 0 < h := pos_of_mul_pos_right (h0.trans_lt hlt) hn.le
    exact ⟨(mem_Ico_tiles hh).1 ⟨h0, hlt⟩, Int.emod_nonneg q hh.ne', Int.emod_lt_of_pos q hh⟩
  · rintro ⟨hq, h0, hlt⟩
    exact (mem_Ico_tiles (h0.trans_lt hlt)).2 hq

variable {α κ : Type*}

/-- The sets `B q`, for `q` in `ι`, cut `S` into disjoint parts. -/
structure Partitions (ι : Set κ) (B : κ → Set α) (S : Set α) : Prop where
  cover : ⋃ q ∈ ι, B q = S
  disjoint : ι.PairwiseDisjoint B

/-- A family partitions when each point of the whole has an index, and lies in the part
of that index only. -/
theorem Partitions.of_index {ι : Set κ} {B : κ → Set α} {S : Set α} (idx : α → κ)
    (hidx : ∀ x ∈ S, idx x ∈ ι) (hB : ∀ q ∈ ι, ∀ x, x ∈ B q ↔ x ∈ S ∧ idx x = q) :
    Partitions ι B S := by
  constructor
  · ext x
    simp only [Set.mem_iUnion, exists_prop]
    constructor
    · rintro ⟨q, hq, hx⟩
      exact ((hB q hq x).1 hx).1
    · intro hx
      exact ⟨idx x, hidx x hx, (hB _ (hidx x hx) x).2 ⟨hx, rfl⟩⟩
  · intro q hq q' hq' hne
    refine Set.disjoint_left.2 fun x hx hx' => hne ?_
    rw [← ((hB q hq x).1 hx).2, ← ((hB q' hq' x).1 hx').2]

end AieHlc.Grid
