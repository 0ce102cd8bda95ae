import Mathlib.Data.Nat.Basic
import Mathlib.Tactic.Common

/-!
# Scanning for a run

A scan over positions looks for `n` good ones in a row, with a count that is reset at every bad
position. Positions outside a window are skipped without a reset.

* `scanRun`: the scan, with its count and the first position of the current run.
* `scanRun_filter`: skipping is the same as scanning the window only.
* `filter_range_convex`: a window without holes is an interval.
* **`findRun_spec`**: the scan finds a run exactly when there is one.
-/

namespace AieHlc.Search

open List

variable {inside good : ℕ → Bool} {n : ℕ}

/-- The scan over the positions that are left. -/
def scanRun (inside good : ℕ → Bool) (n : ℕ) : List ℕ → ℕ → ℕ → Option ℕ
  | [], _, _ => none
  | r :: rs, count, first =>
    if !inside r then scanRun inside good n rs count first
    else if good r then
      if count + 1 = n then some (if count = 0 then r else first)
      else scanRun inside good n rs (count + 1) (if count = 0 then r else first)
    else scanRun inside good n rs 0 first

/-- `n` good positions from `f` on. -/
def RunAt (good : ℕ → Bool) (n f : ℕ) : Prop := ∀ j < n, good (f + j) = true

theorem scanRun_filter : ∀ (rs : List ℕ) (count first : ℕ),
    scanRun inside good n rs count first = scanRun (fun _ => true) good n (rs.filter inside) count first := by
  intro rs
  induction rs with
  | nil =>
    intro count first
    rfl
  | cons r rs ih =>
    intro count first
    by_cases hin : inside r
    · simp only [scanRun, filter_cons_of_pos hin, hin, Bool.not_true, Bool.false_eq_true, if_false, ih]
    · simp only [scanRun, filter_cons_of_neg hin, hin, Bool.not_false, if_true, ih]

/-- A window without holes. -/
def Convex (inside : ℕ → Bool) : Prop :=
  ∀ a b c, a ≤ b → b ≤ c → inside a = true → inside c = true → inside b = true

theorem filter_range_convex (hconv : Convex inside) : ∀ (m k : ℕ),
    ∃ a l, (range' k m).filter inside = range' a l ∧ k ≤ a ∧ a + l ≤ k + m := by
  intro m
  induction m with
  | zero =>
    intro k
    exact ⟨k, 0, rfl, le_rfl, le_rfl⟩
  | succ m ih =>
    intro k
    obtain ⟨a, l, heq, hk, hle⟩ := ih (k + 1)
    rw [range'_succ]
    by_cases hin : inside k
    · rw [filter_cons_of_pos hin, heq]
      cases l with
      | zero => exact ⟨k, 1, rfl, le_rfl, by omega⟩
      | succ l =>
        -- the window goes on after `k`, so it cannot start again later than `k + 1`
        have ha : inside a = true := by
          have hmem : a ∈ (range' (k + 1) m).filter inside := by
            rw [heq]
            simp
          exact (mem_filter.1 hmem).2
        have hnext : inside (k + 1) = true := hconv k (k + 1) a (by omega) hk hin ha
        have hmem : k + 1 ∈ range' a (l + 1) := by
          rw [← heq]
          refine mem_filter.2 ⟨?_, hnext⟩
          rw [mem_range'_1]
          omega
        rw [mem_range'_1] at hmem
        obtain rfl : a = k + 1 := by omega
        exact ⟨k, l + 2, by simp only [range'_succ], le_rfl, by omega⟩
    · rw [filter_cons_of_neg hin, heq]
      exact ⟨a, l, rfl, by omega, by omega⟩

/-- The scan of an interval: `s` is where the current run starts, or the next position if there is none. -/
theorem scanRun_range' : ∀ (m s count first : ℕ), count < n → (count ≠ 0 → first = s) → RunAt good count s →
    (∀ f, scanRun (fun _ => true) good n (range' (s + count) m) count first = some f →
      RunAt good n f ∧ s ≤ f ∧ f + n ≤ s + count + m) ∧
    (scanRun (fun _ => true) good n (range' (s + count) m) count first = none →
      ∀ f, s ≤ f → f + n ≤ s + count + m → ¬RunAt good n f) := by
  intro m
  induction m with
  | zero =>
    intro s count first hlt _ _
    refine ⟨fun f h => (by cases h), ?_⟩
    intro _ f hs hle
    omega
  | succ m ih =>
    intro s count first hlt hfirst hrun
    have hstart : (if count = 0 then s + count else first) = s := by
      by_cases h0 : count = 0
      · rw [if_pos h0]
        omega
      · rw [if_neg h0]
        exact hfirst h0
    rw [range'_succ, scanRun]
    simp only [Bool.not_true, Bool.false_eq_true, if_false, hstart]
    by_cases hgood : good (s + count) = true
    · have hrun' : RunAt good (count + 1) s := by
        intro j hj
        rcases Nat.lt_succ_iff_lt_or_eq.1 hj with hj | rfl
        · exact hrun j hj
        · exact hgood
      rw [if_pos hgood]
      by_cases hdone : count + 1 = n
      · rw [if_pos hdone]
        subst hdone
        refine ⟨?_, fun h => (by cases h)⟩
        intro f hf
        obtain rfl := Option.some.inj hf
        exact ⟨hrun', le_rfl, by omega⟩
      · rw [if_neg hdone]
        obtain ⟨hsome, hnone⟩ := ih s (count + 1) s (by omega) (fun _ => rfl) hrun'
        refine ⟨fun f hf => ?_, fun hn f hs hle => hnone hn f hs (by omega)⟩
        obtain ⟨hr, hs, hle⟩ := hsome f hf
        exact ⟨hr, hs, by omega⟩
    · -- a bad position: no run may contain it, and the count starts again behind it
      rw [if_neg hgood]
      obtain ⟨hsome, hnone⟩ := ih (s + count + 1) 0 first (by omega) (fun h => absurd rfl h)
        (fun j hj => absurd hj (Nat.not_lt_zero j))
      refine ⟨fun f hf => ?_, fun hn f hs hle => ?_⟩
      · obtain ⟨hr, hs, hle⟩ := hsome f hf
        exact ⟨hr, by omega, by omega⟩
      · by_cases hbehind : s + count + 1 ≤ f
        · exact hnone hn f hbehind (by omega)
        · intro hr
          have hat := hr (s + count - f) (by omega)
          rw [Nat.add_sub_cancel' (by omega)] at hat
          exact hgood hat

/-- The scan of the first `len` positions. -/
def findRun (inside good : ℕ → Bool) (n len : ℕ) : Option ℕ := scanRun inside good n (range len) 0 0

/-- **The scan finds a run exactly when there is one** in the window, and what it finds is one. -/
theorem findRun_spec (hconv : Convex inside) (hn : 0 < n) (len : ℕ) :
    (∀ f, findRun inside good n len = some f →
      ∀ j < n, f + j < len ∧ inside (f + j) = true ∧ good (f + j) = true) ∧
    (findRun inside good n len = none →
      ∀ f, ¬∀ j < n, f + j < len ∧ inside (f + j) = true ∧ good (f + j) = true) := by
  obtain ⟨a, l, heq, _, _⟩ := filter_range_convex hconv len 0
  have hwin : ∀ k, (k < len ∧ inside k = true) ↔ (a ≤ k ∧ k < a + l) := by
    intro k
    have hmem : k ∈ (range' 0 len).filter inside ↔ k ∈ range' a l := by rw [heq]
    rw [mem_filter, mem_range'_1, mem_range'_1] at hmem
    simpa using hmem
  have hscan : findRun inside good n len = scanRun (fun _ => true) good n (range' a l) 0 0 := by
    rw [findRun, scanRun_filter, range_eq_range', heq]
  obtain ⟨hsome, hnone⟩ := @scanRun_range' good n l a 0 0 hn (fun h => absurd rfl h)
    (fun j hj => absurd hj (Nat.not_lt_zero j))
  rw [hscan]
  refine ⟨fun f hf j hj => ?_, fun hnil f hall => ?_⟩
  · obtain ⟨hr, hlow, hhigh⟩ := hsome f hf
    obtain ⟨hlen, hin⟩ := (hwin (f + j)).2 ⟨by omega, by omega⟩
    exact ⟨hlen, hin, hr j hj⟩
  · obtain ⟨hlen, hin, _⟩ := hall 0 hn
    obtain ⟨hlen', hin', _⟩ := hall (n - 1) (by omega)
    have hlow := (hwin (f + 0)).1 ⟨hlen, hin⟩
    have hhigh := (hwin (f + (n - 1))).1 ⟨hlen', hin'⟩
    exact hnone hnil f (by omega) (by omega) fun j hj => (hall j hj).2.2

end AieHlc.Search
