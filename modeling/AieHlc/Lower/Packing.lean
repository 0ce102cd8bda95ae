import AieHlc.Lower.State
import AieHlc.Word.Int32

/-!
# Elements packed into words

A DMA moves 32-bit words. With an element width dividing 32, a run of whole words
has the same size counted in words, elements or bits. The passes count bytes per
element, rounded up to one, which is the same only from 8 bits on.
-/

namespace AieHlc.Lower

open AieHlc.Word

theorem dvd_word {w : ℕ} (h : w = 4 ∨ w = 8) : w ∣ 32 := by
  rcases h with rfl | rfl <;> decide

section

variable {w : ℕ} (hw : w ∣ 32)
include hw

theorem perWord_mul : 32 / w * w = 32 := Nat.div_mul_cancel hw

theorem perWord_dvd : 32 / w ∣ 32 := ⟨w, (perWord_mul hw).symm⟩

theorem perWord_pos : 0 < 32 / w := Nat.pos_of_dvd_of_pos (perWord_dvd hw) (by decide)

theorem bytes_of_words (n : ℕ) : 32 / w * n * w / 8 = 4 * n := by
  have h : 32 / w * n * w = 8 * (4 * n) := by
    calc 32 / w * n * w = 32 / w * w * n := by ring
      _ = 8 * (4 * n) := by rw [perWord_mul hw]; ring
  rw [h, Nat.mul_div_cancel_left _ (by decide)]

/-- Elements of a byte or more fill a word exactly; of smaller ones, counted as a byte each, a word
seems to hold two, four or eight times as many bytes as it does. -/
theorem elementSizeBytes_cases :
    (8 ≤ w ∧ 32 / w * elementSizeBytes w = 4) ∨
      (w < 8 ∧ elementSizeBytes w = 1 ∧ ∃ c, (c = 2 ∨ c = 4 ∨ c = 8) ∧ 32 / w = 4 * c) := by
  rcases dvd_32_cases hw with rfl | rfl | rfl | rfl | rfl | rfl
  · exact Or.inr ⟨by decide, by decide, 8, by decide, by decide⟩
  · exact Or.inr ⟨by decide, by decide, 4, by decide, by decide⟩
  · exact Or.inr ⟨by decide, by decide, 2, by decide, by decide⟩
  all_goals exact Or.inl (by decide)

end

/-- A length counted in bytes per element, of a buffer of `bytes`: right from 8 bits on, and else two, four or
eight times too long. -/
def Counted (w len bytes : ℕ) : Prop :=
  (8 ≤ w ∧ len = bytes) ∨ (w < 8 ∧ ∃ c, (c = 2 ∨ c = 4 ∨ c = 8) ∧ len = c * bytes)

theorem counted_words {w : ℕ} (hw : w ∣ 32) (n : ℕ) :
    Counted w (32 / w * n * elementSizeBytes w) (4 * n) := by
  rcases elementSizeBytes_cases hw with ⟨h8, h4⟩ | ⟨h8, h1, c, hc, h4⟩
  · exact Or.inl ⟨h8, by rw [mul_right_comm, h4]⟩
  · exact Or.inr ⟨h8, c, hc, by rw [h1, h4]; ring⟩

namespace Counted

variable {w len bytes : ℕ} (h : Counted w len bytes)
include h

theorem exact (hw : 8 ≤ w) : len = bytes := by
  rcases h with ⟨-, h⟩ | ⟨hlt, -⟩
  · exact h
  · exact absurd hw (Nat.not_le_of_lt hlt)

/-- Smaller elements are not counted right after truncation either. -/
theorem toNat_i32_eq_iff (hpos : 0 < bytes) : (i32 len).toNat = bytes ↔ 8 ≤ w ∧ bytes < 2 ^ 31 := by
  rcases h with ⟨hw, rfl⟩ | ⟨hw, c, hc, rfl⟩
  · rw [Word.toNat_i32_eq_iff hpos, and_iff_right hw]
  · exact iff_of_false (toNat_i32_scaled_ne hpos hc) fun h => Nat.not_le_of_lt hw h.1

end Counted

end AieHlc.Lower
