import Mathlib.Data.Nat.Bitwise
import Mathlib.Data.List.Basic
import Mathlib.Logic.Function.Basic
import Mathlib.Tactic.IntervalCases

/-!
# 32-bit words

Machine words as natural numbers: wrap-around, bit fields, parity, and word
buffers (a memory and the list of its first words).

* `u32`: reduction to 32 bits.
* `or_shiftLeft_eq_add`: a field put beside a smaller one is a sum, so fields are
  read back by division and remainder.
* `and_high_mask`: a word rounded down to a power of two, by a mask.
* `parity32`, `parity32_or_top`: setting the top bit flips the parity.
* `parity_fold`: the parity of a word, by folding its halves onto each other.
* `map_range_update`, `map_range_update_last`: a store into a buffer, as a list.
-/

namespace AieHlc.Word

open List

/-- The value of an unsigned 32-bit computation. -/
def u32 (n : ℕ) : ℕ := n % 2 ^ 32

theorem u32_eq {n : ℕ} (h : n < 2 ^ 32) : u32 n = n := Nat.mod_eq_of_lt h

/-- Unsigned 32-bit subtraction of a 32-bit value. -/
def u32sub (a b : ℕ) : ℕ := u32 (a + 2 ^ 32 - b)

theorem u32sub_eq {a b : ℕ} (hb : b ≤ a) (ha : a < 2 ^ 32) : u32sub a b = a - b := by
  unfold u32sub u32
  omega

theorem or_shiftLeft_eq_add {a k : ℕ} (h : a < 2 ^ k) (n : ℕ) : a ||| (n <<< k) = a + n * 2 ^ k := by
  rw [Nat.lor_comm, ← Nat.shiftLeft_add_eq_or_of_lt h, Nat.shiftLeft_eq, add_comm]

theorem and_mask (n k : ℕ) : n &&& (2 ^ k - 1) = n % 2 ^ k := Nat.and_two_pow_sub_one_eq_mod n k

theorem and_high_mask {x k : ℕ} (hx : x < 2 ^ 32) (hk : k ≤ 32) :
    x &&& (2 ^ 32 - 2 ^ k) = x / 2 ^ k * 2 ^ k := by
  have hmask : 2 ^ 32 - 2 ^ k = (2 ^ (32 - k) - 1) <<< k := by
    rw [Nat.shiftLeft_eq, Nat.sub_mul, one_mul, ← pow_add, Nat.sub_add_cancel hk]
  rw [hmask, ← Nat.shiftRight_eq_div_pow, ← Nat.shiftLeft_eq]
  apply Nat.eq_of_testBit_eq
  intro i
  rw [Nat.testBit_and, Nat.testBit_shiftLeft, Nat.testBit_shiftLeft, Nat.testBit_two_pow_sub_one,
    Nat.testBit_shiftRight]
  by_cases hi : k ≤ i
  · rw [Nat.add_sub_cancel' hi]
    by_cases h32 : i < 32
    · have hlt : i - k < 32 - k := by omega
      simp [hi, hlt]
    · have hpow : 2 ^ 32 ≤ 2 ^ i := Nat.pow_le_pow_right (by decide) (by omega)
      simp [Nat.testBit_lt_two_pow (hx.trans_le hpow)]
  · simp [hi]

/-- Number of ones among the low 32 bits. -/
def popcount32 (v : ℕ) : ℕ := (range 32).countP fun i => v.testBit i

/-- `__builtin_parity`: the number of ones modulo 2. -/
def parity32 (v : ℕ) : ℕ := popcount32 v % 2

theorem parity32_lt (v : ℕ) : parity32 v < 2 := Nat.mod_lt _ (by decide)

/-- The top bit adds itself to the count of the 31 bits below it. -/
theorem popcount32_or_top {c b : ℕ} (hc : c < 2 ^ 31) (hb : b < 2) :
    popcount32 (c ||| (b <<< 31)) = popcount32 c + b := by
  unfold popcount32
  have hlow : ∀ i, i < 31 → (c ||| (b <<< 31)).testBit i = c.testBit i := by
    intro i hi
    rw [Nat.testBit_or, Nat.testBit_shiftLeft]
    simp [show ¬31 ≤ i by omega]
  have htop : (c ||| (b <<< 31)).testBit 31 = decide (b = 1) := by
    rw [Nat.testBit_or, Nat.testBit_shiftLeft, Nat.testBit_lt_two_pow hc]
    interval_cases b <;> rfl
  have hc31 : c.testBit 31 = false := Nat.testBit_lt_two_pow hc
  rw [range_succ, countP_append, countP_append]
  have hsame : (range 31).countP (fun i => (c ||| (b <<< 31)).testBit i) =
      (range 31).countP fun i => c.testBit i :=
    countP_congr fun i hi => by rw [hlow i (mem_range.1 hi)]
  rw [hsame, countP_singleton, countP_singleton, htop, hc31]
  interval_cases b <;> simp

/-- **The odd-parity bit.** With the complement of the parity in the top bit, a word
has odd parity. -/
theorem parity32_or_top {c : ℕ} (hc : c < 2 ^ 31) :
    parity32 (c ||| ((1 - parity32 c) <<< 31)) = 1 := by
  have hlt := parity32_lt c
  rw [parity32, popcount32_or_top hc (by omega)]
  unfold parity32 at hlt ⊢
  omega

/-- Ones in two places cancel, modulo 2. -/
theorem countP_xor (p q : ℕ → Bool) (l : List ℕ) :
    (l.countP p + l.countP q) % 2 = l.countP (fun i => p i ^^ q i) % 2 := by
  induction l with
  | nil => rfl
  | cons a l ih =>
    simp only [countP_cons]
    cases p a <;> cases q a <;> simp <;> omega

/-- Folding the upper half of a word onto the lower keeps the parity. -/
theorem parity_fold (v m : ℕ) :
    (range (m + m)).countP (fun i => v.testBit i) % 2 =
      (range m).countP (fun i => (v ^^^ (v >>> m)).testBit i) % 2 := by
  have hupper : (range m).countP ((fun i => v.testBit i) ∘ fun i => m + i) =
      (range m).countP fun i => (v >>> m).testBit i := by
    refine countP_congr fun i _ => ?_
    rw [Nat.testBit_shiftRight]
    rfl
  rw [range_add, countP_append, countP_map, hupper, countP_xor]
  refine congrArg (· % 2) (countP_congr fun i _ => ?_)
  rw [Nat.testBit_xor]

section Buffer

variable {α : Type*}

theorem map_range_update_last (p : ℕ → α) (n : ℕ) (v : α) :
    (range (n + 1)).map (Function.update p n v) = (range n).map p ++ [v] := by
  rw [range_succ, map_append, map_singleton, Function.update_self]
  congr 1
  refine map_congr_left fun i hi => ?_
  rw [mem_range] at hi
  exact Function.update_of_ne (by omega) _ _

theorem map_range_update (p : ℕ → α) (n i : ℕ) (v : α) :
    (range n).map (Function.update p i v) = ((range n).map p).set i v := by
  refine ext_getElem? fun j => ?_
  rw [getElem?_set, getElem?_map, getElem?_map, length_map, length_range]
  by_cases hj : j < n
  · rw [getElem?_range hj]
    by_cases hij : i = j
    · subst hij
      simp [hj]
    · simp [hij, Function.update_of_ne (Ne.symm hij)]
  · have hnone : (range n)[j]? = none := by simp; omega
    rw [hnone]
    by_cases hij : i = j
    · simp [hij, hj]
    · simp [hij]

theorem eq_of_map_range {p : ℕ → α} {n i : ℕ} {pre post : List α} {v : α}
    (h : (range n).map p = pre ++ v :: post) (hi : i = pre.length) : p i = v := by
  have hget : ((range n).map p)[i]? = some v := by rw [h, hi]; simp
  rw [getElem?_map] at hget
  obtain ⟨j, hj, hv⟩ := Option.map_eq_some_iff.1 hget
  rw [getElem?_eq_some_iff] at hj
  obtain ⟨hlt, hj⟩ := hj
  rw [getElem_range] at hj
  rw [hj, hv]

end Buffer

end AieHlc.Word
