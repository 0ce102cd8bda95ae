import Mathlib.Data.Int.Notation
import Mathlib.Algebra.Order.Ring.Nat
import Mathlib.Data.Nat.Prime.Basic
import Mathlib.Tactic.IntervalCases
import Mathlib.Tactic.Linarith
import Mathlib.Tactic.Ring

/-!
# Truncation to a signed 32-bit integer

`i32 x` is the value a 64-bit `x` has after a cast to `int32_t`.

* `i32_of_lt`: a natural below `2^31` is unchanged; `i32_eq_iff`: no other is.
* `i32_mul_scaled`: where the product of two truncated factors is the product of
  the factors up to a power of two, nothing was truncated and the power is one.
-/

namespace AieHlc.Word

variable {n x c : ℕ}

/-- `static_cast<int32_t>`. Kept closed, or the unifier would unfold the arithmetic of `2 ^ 32`. -/
@[irreducible] def i32 (x : ℤ) : ℤ := x.bmod (2 ^ 32)

theorem i32_of_lt (h : n < 2 ^ 31) : i32 n = n := by
  unfold i32
  exact Int.bmod_eq_of_le (by omega) (by omega)

@[simp] theorem i32_zero : i32 0 = 0 := by
  unfold i32
  decide

theorem i32_lt (x : ℤ) : i32 x < 2 ^ 31 := by
  have h : x.bmod (2 ^ 32) < ((2 ^ 32 : ℕ) + 1) / 2 := Int.bmod_lt (by decide)
  unfold i32
  omega

theorem neg_le_i32 (x : ℤ) : -2 ^ 31 ≤ i32 x := by
  have h : -(((2 ^ 32 : ℕ) : ℤ) / 2) ≤ x.bmod (2 ^ 32) := Int.le_bmod (by decide)
  unfold i32
  omega

theorem i32_of_range {x : ℤ} (h : -2 ^ 31 ≤ x) (h' : x < 2 ^ 31) : i32 x = x := by
  unfold i32
  exact Int.bmod_eq_of_le (by omega) (by omega)

theorem i32_i32 (x : ℤ) : i32 (i32 x) = i32 x := by
  unfold i32
  exact Int.bmod_bmod

theorem i32_mul_right (x y : ℤ) : i32 (x * i32 y) = i32 (x * y) := by
  unfold i32
  exact Int.mul_bmod_bmod

/-- A natural and its truncation differ by whole turns. -/
theorem i32_turns (n : ℕ) : ∃ a : ℕ, (n : ℤ) = i32 n + 2 ^ 32 * a := by
  have hlt := i32_lt n
  have hmod : (i32 n) % (2 ^ 32 : ℕ) = (n : ℤ) % (2 ^ 32 : ℕ) := by
    unfold i32
    exact Int.bmod_emod
  refine ⟨((n - i32 n) / 2 ^ 32).toNat, ?_⟩
  omega

theorem i32_le (n : ℕ) : i32 n ≤ n := by
  obtain ⟨a, ha⟩ := i32_turns n
  omega

theorem i32_eq_iff : i32 n = n ↔ n < 2 ^ 31 := by
  refine ⟨fun h => ?_, i32_of_lt⟩
  have := i32_lt n
  omega

theorem toNat_i32_le (n : ℕ) : (i32 n).toNat ≤ n := by
  have := i32_le n
  omega

theorem toNat_i32_of_lt (h : n < 2 ^ 31) : (i32 n).toNat = n := by
  rw [i32_of_lt h, Int.toNat_natCast]

theorem toNat_i32_lt (x : ℤ) : (i32 x).toNat < 2 ^ 31 := by
  have := i32_lt x
  omega

/-- A truncation that is not negative: what is left, and the turns taken off. -/
theorem toNat_i32_turns (h : 0 < (i32 n).toNat) : ∃ a : ℕ, n = (i32 n).toNat + 2 ^ 32 * a := by
  obtain ⟨a, ha⟩ := i32_turns n
  exact ⟨a, by omega⟩

theorem toNat_i32_eq_iff (hn : 0 < n) : (i32 n).toNat = n ↔ n < 2 ^ 31 := by
  rw [← i32_eq_iff]
  omega

/-- Where the product of two truncated factors is a multiple of the product, nothing was truncated. -/
theorem toNat_i32_mul_eq {y e : ℕ} (hx : 0 < x) (hy : 0 < y) (he : 0 < e)
    (h : (i32 x).toNat * (i32 y).toNat = x * y * e) : e = 1 ∧ x < 2 ^ 31 ∧ y < 2 ^ 31 := by
  have hle := Nat.mul_le_mul (toNat_i32_le x) (toNat_i32_le y)
  have hxy := Nat.mul_pos hx hy
  have he1 : e = 1 := by
    refine le_antisymm (Nat.le_of_mul_le_mul_left ?_ hxy) he
    omega
  have heq : (i32 x).toNat * (i32 y).toNat = x * y := by rw [h, he1, mul_one]
  have hs : 0 < (i32 y).toNat := Nat.pos_of_ne_zero fun h0 => by simp [h0] at heq; omega
  have hxe : (i32 x).toNat = x := by
    refine le_antisymm (toNat_i32_le x) (Nat.le_of_mul_le_mul_right ?_ hs)
    calc x * (i32 y).toNat ≤ x * y := Nat.mul_le_mul_left _ (toNat_i32_le y)
      _ = (i32 x).toNat * (i32 y).toNat := heq.symm
  have hye : (i32 y).toNat = y := by
    rw [hxe] at heq
    exact Nat.eq_of_mul_eq_mul_left hx heq
  exact ⟨he1, (toNat_i32_eq_iff hx).1 hxe, (toNat_i32_eq_iff hy).1 hye⟩

theorem dvd_32_cases {d : ℕ} (h : d ∣ 32) : d = 1 ∨ d = 2 ∨ d = 4 ∨ d = 8 ∨ d = 16 ∨ d = 32 := by
  have h5 : d ∣ 2 ^ 5 := h
  obtain ⟨k, hk, rfl⟩ := (Nat.dvd_prime_pow Nat.prime_two).1 h5
  interval_cases k <;> simp

/-- One factor was truncated: an odd multiple of it cannot be whole turns. -/
theorem turns_eq_zero {r a k : ℕ} (hr : 0 < r) (hlt : r < 2 ^ 31) (hk : k = 1 ∨ k = 3 ∨ k = 7)
    (h : 2 ^ 32 * a = k * r) : False := by
  have hcop : Nat.Coprime (2 ^ 32) k := by
    apply Nat.Coprime.pow_left
    rcases hk with rfl | rfl | rfl <;> decide
  have hdvd : 2 ^ 32 ∣ r := hcop.dvd_of_dvd_mul_left ⟨a, h.symm⟩
  have := Nat.le_of_dvd hr hdvd
  omega

/-- A multiple by 2, 4 or 8 is not truncated back to what was multiplied. -/
theorem i32_scaled_ne (hx : 0 < x) (hlt : x < 2 ^ 31) (hc : c = 2 ∨ c = 4 ∨ c = 8) : i32 (c * x : ℕ) ≠ x := by
  intro h
  obtain ⟨a, ha⟩ := i32_turns (c * x)
  rw [h] at ha
  have hmul : c * x = x + 2 ^ 32 * a := by exact_mod_cast ha
  have hk : c - 1 = 1 ∨ c - 1 = 3 ∨ c - 1 = 7 := by omega
  refine turns_eq_zero hx hlt hk (a := a) ?_
  rw [Nat.sub_mul, hmul]
  omega

theorem toNat_i32_scaled_ne (hx : 0 < x) (hc : c = 2 ∨ c = 4 ∨ c = 8) : (i32 (c * x : ℕ)).toNat ≠ x := by
  intro h
  have hlt : x < 2 ^ 31 := h ▸ toNat_i32_lt _
  refine i32_scaled_ne hx hlt hc ?_
  have hnn : 0 ≤ i32 (c * x : ℕ) := by
    by_contra hneg
    rw [Int.toNat_of_nonpos (by omega)] at h
    omega
  rw [← Int.toNat_of_nonneg hnn, h]

/-- Only part of a product is left where a factor was truncated, and the part is never `1/2`, `1/4`
or `1/8` of it. -/
theorem turns_mul_ne {r s a b : ℕ} (hr : 0 < r) (hs : 0 < s) (hr' : r < 2 ^ 31) (hs' : s < 2 ^ 31)
    (hc : c = 2 ∨ c = 4 ∨ c = 8) : r * s * c ≠ (r + 2 ^ 32 * a) * (s + 2 ^ 32 * b) := by
  intro h
  have hk : c - 1 = 1 ∨ c - 1 = 3 ∨ c - 1 = 7 := by omega
  obtain ⟨k, rfl⟩ : ∃ k, c = k + 1 := ⟨c - 1, by omega⟩
  rw [Nat.add_sub_cancel] at hk
  rcases Nat.eq_zero_or_pos a with rfl | ha
  · -- only the second factor was truncated
    have : r * (k * s) = r * (2 ^ 32 * b) := by linarith
    exact turns_eq_zero hs hs' hk (Nat.eq_of_mul_eq_mul_left hr this).symm
  · rcases Nat.eq_zero_or_pos b with rfl | hb
    · have : s * (k * r) = s * (2 ^ 32 * a) := by linarith
      exact turns_eq_zero hr hr' hk (Nat.eq_of_mul_eq_mul_left hs this).symm
    · -- both were: each is over three times what is left of it
      have hx : 3 * r ≤ r + 2 ^ 32 * a := by omega
      have hy : 3 * s ≤ s + 2 ^ 32 * b := by omega
      have hmul : 3 * r * (3 * s) ≤ (r + 2 ^ 32 * a) * (s + 2 ^ 32 * b) := Nat.mul_le_mul hx hy
      have hpos : 0 < r * s := Nat.mul_pos hr hs
      have hle : k + 1 ≤ 8 := by omega
      have : r * s * (k + 1) ≤ r * s * 8 := Nat.mul_le_mul_left _ hle
      have h9 : 3 * r * (3 * s) = r * s * 9 := by ring
      omega

/-- **Nothing is truncated** where the truncated factors give the product, measured in quarters of a
word of `d` elements; and then `d` is 4. -/
theorem i32_mul_scaled {y d : ℕ} (hx : 0 < x) (hy : 0 < y) (hd : d ∣ 32)
    (h : (i32 x).toNat * (i32 y).toNat * d = 4 * (x * y)) : d = 4 ∧ x < 2 ^ 31 ∧ y < 2 ^ 31 := by
  have hpos : 0 < (i32 x).toNat * (i32 y).toNat := by
    rcases Nat.eq_zero_or_pos ((i32 x).toNat * (i32 y).toNat) with h0 | h0
    · have := Nat.mul_pos hx hy
      rw [h0, zero_mul] at h
      omega
    · exact h0
  have hr := Nat.pos_of_mul_pos_right hpos
  have hs := Nat.pos_of_mul_pos_left hpos
  have hle := Nat.mul_le_mul (toNat_i32_le x) (toNat_i32_le y)
  have hxy := Nat.mul_pos hx hy
  rcases dvd_32_cases hd with rfl | rfl | rfl | hd8
  · omega
  · omega
  · have heq : (i32 x).toNat * (i32 y).toNat = x * y * 1 := by omega
    exact ⟨rfl, (toNat_i32_mul_eq hx hy Nat.one_pos heq).2⟩
  · obtain ⟨c, hc, rfl⟩ : ∃ c, (c = 2 ∨ c = 4 ∨ c = 8) ∧ d = 4 * c := ⟨d / 4, by omega, by omega⟩
    obtain ⟨a, ha⟩ := toNat_i32_turns hr
    obtain ⟨b, hb⟩ := toNat_i32_turns hs
    have heq : (i32 x).toNat * (i32 y).toNat * c = x * y := by
      have : 4 * ((i32 x).toNat * (i32 y).toNat * c) = 4 * (x * y) := by rw [← h]; ring
      omega
    nth_rewrite 2 [ha] at heq
    nth_rewrite 2 [hb] at heq
    exact absurd heq (turns_mul_ne hr hs (toNat_i32_lt x) (toNat_i32_lt y) hc)

end AieHlc.Word
