import Mathlib.Data.Nat.Prime.Basic
import AieHlc.Dma.Walk
import AieHlc.Lower.State
import AieHlc.Word.Int32

/-!
# GEMM tilings and the streams they call for

A tiling of `C = A·B` over K rounds and sub-tiles of M and N. Both inputs are
stored with K innermost: A as `[M, K]`, B as `[N, K]`.

* `Sizes`: the sizes, with what makes them a tiling; `Tiling`: of elements packed into words.
* `Tiling.block`: the bytes of one sub-tile in one K round, row by row.
* `Operand`: one input seen from its own rows; `Operand.expected` is the sequence
  of blocks the cores consume, round by round in the order of the policy.
-/

namespace AieHlc.Gemm

open List AieHlc.Dma AieHlc.Word AieHlc.Lower

/-- The two inputs. -/
inductive Input where
  | A
  | B
deriving DecidableEq, Repr

/-- Sizes of a tiled GEMM over K rounds. -/
structure Sizes where
  tileM : ℕ
  tileRows : ℕ
  tileN : ℕ
  tileCols : ℕ
  effectiveK : ℕ
  fullK : ℕ
  kRounds : ℕ
  tileM_dvd : tileM ∣ tileRows
  tileRows_pos : 0 < tileRows
  tileN_dvd : tileN ∣ tileCols
  tileCols_pos : 0 < tileCols
  effectiveK_pos : 0 < effectiveK
  fullK_eq : fullK = effectiveK * kRounds
  kRounds_gt : 1 < kRounds

/-- Two sub-tiles of 4 rows in M, `c` in N, two K rounds of 8. -/
def smallSizes (c : ℕ) (hc : 0 < c) : Sizes where
  tileM := 4
  tileRows := 8
  tileN := 4
  tileCols := 4 * c
  effectiveK := 8
  fullK := 16
  kRounds := 2
  tileM_dvd := by decide
  tileRows_pos := by decide
  tileN_dvd := ⟨c, rfl⟩
  tileCols_pos := Nat.mul_pos (Nat.succ_pos 3) hc
  effectiveK_pos := by decide
  fullK_eq := rfl
  kRounds_gt := Nat.one_lt_two

namespace Sizes

variable (t : Sizes)

def rows : Input → ℕ
  | .A => t.tileRows
  | .B => t.tileCols

def tile : Input → ℕ
  | .A => t.tileM
  | .B => t.tileN

variable (x : Input)

def tiles : ℕ := t.rows x / t.tile x

/-- The input has more than one sub-tile. -/
def Split : Prop := t.tile x < t.rows x

instance : Decidable (t.Split x) := inferInstanceAs (Decidable (_ < _))

theorem kRounds_pos : 0 < t.kRounds := Nat.zero_lt_of_lt t.kRounds_gt

theorem effectiveK_lt : t.effectiveK < t.fullK := by
  rw [t.fullK_eq]
  exact (Nat.lt_mul_iff_one_lt_right t.effectiveK_pos).2 t.kRounds_gt

theorem fullK_div : t.fullK / t.effectiveK = t.kRounds := by
  rw [t.fullK_eq, Nat.mul_div_cancel_left _ t.effectiveK_pos]

theorem tile_dvd : t.tile x ∣ t.rows x := by
  cases x
  · exact t.tileM_dvd
  · exact t.tileN_dvd

theorem rows_pos : 0 < t.rows x := by
  cases x
  · exact t.tileRows_pos
  · exact t.tileCols_pos

theorem tile_pos : 0 < t.tile x := Nat.pos_of_dvd_of_pos (t.tile_dvd x) (t.rows_pos x)

theorem tiles_pos : 0 < t.tiles x := Nat.div_pos (Nat.le_of_dvd (t.rows_pos x) (t.tile_dvd x)) (t.tile_pos x)

variable {t x}

theorem tile_of_not_split (h : ¬t.Split x) : t.tile x = t.rows x :=
  le_antisymm (Nat.le_of_dvd (t.rows_pos x) (t.tile_dvd x)) (not_lt.1 h)

theorem tiles_of_not_split (h : ¬t.Split x) : t.tiles x = 1 := by
  rw [tiles, tile_of_not_split h, Nat.div_self (t.rows_pos x)]

end Sizes

/-- A tiling with elements packed into 32-bit words. -/
structure Tiling extends Sizes where
  bitWidth : ℕ
  bitWidth_dvd : bitWidth ∣ 32
  aligned : 32 / bitWidth ∣ effectiveK

namespace Tiling

variable (t : Tiling)

def elemsPerWord : ℕ := 32 / t.bitWidth

def kWords : ℕ := t.effectiveK / t.elemsPerWord

def chunk : ℕ := 4 * t.kWords

def elemBytes : ℕ := elementSizeBytes t.bitWidth

theorem elemsPerWord_mul : t.elemsPerWord * t.bitWidth = 32 := Nat.div_mul_cancel t.bitWidth_dvd

theorem elemsPerWord_dvd : t.elemsPerWord ∣ 32 := ⟨t.bitWidth, t.elemsPerWord_mul.symm⟩

theorem elemsPerWord_pos : 0 < t.elemsPerWord := Nat.pos_of_dvd_of_pos t.elemsPerWord_dvd (by decide)

theorem effectiveK_eq : t.effectiveK = t.elemsPerWord * t.kWords :=
  (Nat.mul_div_cancel' t.aligned).symm

theorem kWords_pos : 0 < t.kWords :=
  Nat.pos_of_ne_zero fun h => by
    have := t.effectiveK_pos
    rw [t.effectiveK_eq, h] at this
    omega

theorem chunk_pos : 0 < t.chunk := Nat.mul_pos (by decide) t.kWords_pos

theorem fullK_words : t.fullK / t.elemsPerWord = t.kWords * t.kRounds := by
  rw [t.fullK_eq, t.effectiveK_eq, mul_assoc, Nat.mul_div_cancel_left _ t.elemsPerWord_pos]

theorem bytes_of_words (n : ℕ) : t.elemsPerWord * n * t.bitWidth / 8 = 4 * n := by
  have h : t.elemsPerWord * n * t.bitWidth = 8 * (4 * n) := by
    calc t.elemsPerWord * n * t.bitWidth = t.elemsPerWord * t.bitWidth * n := by ring
      _ = 8 * (4 * n) := by rw [t.elemsPerWord_mul]; ring
  rw [h, Nat.mul_div_cancel_left _ (by decide)]

/-- Elements of a byte or more fill a word exactly; smaller ones are counted as a byte each. -/
theorem elemBytes_cases :
    (8 ≤ t.bitWidth ∧ t.elemsPerWord * t.elemBytes = 4) ∨
      (t.bitWidth < 8 ∧ t.elemBytes = 1 ∧ 4 < t.elemsPerWord) := by
  have hm := t.elemsPerWord_mul
  unfold elemBytes elementSizeBytes
  rcases dvd_32_cases t.bitWidth_dvd with h | h | h | h | h | h <;> rw [h] at hm ⊢ <;>
    simp only [Nat.reduceDiv, Nat.reduceLeDiff, Nat.reduceLT, if_true, if_false, true_and,
      false_and, or_false,
      false_or, Nat.reduceEqDiff] <;> omega

theorem bitWidth_eq_of_perWord (h : t.elemsPerWord = 4) : t.bitWidth = 8 := by
  have hm := t.elemsPerWord_mul
  rw [h] at hm
  omega

variable (rows r0 k : ℕ)

/-- The bytes of `rows` rows from row `r0` on in K round `k`, row by row. -/
def block : List ℤ :=
  (range rows).flatMap fun r => (range (t.effectiveK * t.bitWidth / 8)).map fun b : ℕ =>
    ((((r0 + r) * t.fullK + k * t.effectiveK) * t.bitWidth / 8 + b : ℕ) : ℤ)

theorem byte_addr (row k : ℕ) :
    (row * t.fullK + k * t.effectiveK) * t.bitWidth / 8 = (row * t.kRounds + k) * t.chunk := by
  have h : row * t.fullK + k * t.effectiveK = t.elemsPerWord * ((row * t.kRounds + k) * t.kWords) := by
    rw [t.fullK_eq, t.effectiveK_eq]
    ring
  rw [h, t.bytes_of_words]
  unfold chunk
  ring

theorem chunk_eq : t.effectiveK * t.bitWidth / 8 = t.chunk := by
  rw [t.effectiveK_eq, t.bytes_of_words]
  rfl

theorem block_eq :
    t.block rows r0 k = (range rows).flatMap fun r => (range t.chunk).map fun b : ℕ =>
      ((((r0 + r) * t.kRounds + k) * t.chunk + b : ℕ) : ℤ) := by
  unfold block
  simp only [t.byte_addr, t.chunk_eq]

@[simp] theorem length_block : (t.block rows r0 k).length = rows * t.chunk := by
  rw [t.block_eq]
  exact length_flatMap_range fun r => by simp

/-- A block is read row by row, in steps of the whole row. -/
theorem block_offsets :
    t.block rows r0 k = (offsets [⟨1, t.chunk⟩, ⟨(t.kRounds * t.chunk : ℕ), rows⟩]).map
      fun b => (((r0 * t.kRounds + k) * t.chunk : ℕ) : ℤ) + b := by
  rw [t.block_eq]
  simp only [offsets, Int.toNat_natCast, flatMap_singleton, flatMap_map, map_flatMap, map_map]
  refine flatMap_congr fun r _ => map_congr_left fun b _ => ?_
  simp only [Function.comp_apply]
  push_cast
  ring

theorem offsets_words (ds : List Dim) :
    offsets (⟨1, 4⟩ :: ⟨4, t.kWords⟩ :: ds) = offsets (⟨1, t.chunk⟩ :: ds) := by
  have h := offsets_merge 1 4 t.kWords ds
  rw [Nat.mul_comm] at h
  exact h

theorem effectiveK_bytes (h : 8 ≤ t.bitWidth) : t.effectiveK * t.elemBytes = t.chunk := by
  rcases t.elemBytes_cases with ⟨-, h4⟩ | ⟨hlt, -⟩
  · calc t.effectiveK * t.elemBytes = t.elemsPerWord * t.elemBytes * t.kWords := by rw [t.effectiveK_eq]; ring
      _ = t.chunk := by rw [h4, chunk]
  · omega

theorem of_bytes (h : t.bitWidth = 8) :
    t.elemBytes = 1 ∧ t.effectiveK = t.chunk ∧ t.fullK = t.chunk * t.kRounds := by
  have h1 : t.elemBytes = 1 := by unfold elemBytes; rw [h]; rfl
  have hc := t.effectiveK_bytes (by omega)
  rw [h1, mul_one] at hc
  exact ⟨h1, hc, by rw [t.fullK_eq, hc]⟩

end Tiling

/-- One input of the GEMM: its rows and those of the other one. -/
structure Operand where
  tile : ℕ
  rows : ℕ
  otherTile : ℕ
  otherRows : ℕ
  /-- whether the policy's outer loop runs over this operand's sub-tiles -/
  outer : Bool
  tile_dvd : tile ∣ rows
  rows_pos : 0 < rows
  otherTile_dvd : otherTile ∣ otherRows
  otherRows_pos : 0 < otherRows

namespace Operand

variable (x : Operand)

def rounds : ℕ := x.rows / x.tile

def otherRounds : ℕ := x.otherRows / x.otherTile

def outerRounds : ℕ := if x.outer then x.rounds else x.otherRounds

def innerRounds : ℕ := if x.outer then x.otherRounds else x.rounds

/-- The sub-tile of this operand in round `(o, i)` of the two loops. -/
def subTile (o i : ℕ) : ℕ := if x.outer then o else i

/-- What the cores consume: for every round of the two loops, the sub-tile's block of every K round. -/
def expected (t : Tiling) : List ℤ :=
  (range x.outerRounds).flatMap fun o => (range x.innerRounds).flatMap fun i =>
    (range t.kRounds).flatMap fun k => t.block x.tile (x.subTile o i * x.tile) k

theorem tile_pos : 0 < x.tile := Nat.pos_of_dvd_of_pos x.tile_dvd x.rows_pos

theorem rounds_pos : 0 < x.rounds := Nat.div_pos (Nat.le_of_dvd x.rows_pos x.tile_dvd) x.tile_pos

theorem otherRounds_pos : 0 < x.otherRounds :=
  Nat.div_pos (Nat.le_of_dvd x.otherRows_pos x.otherTile_dvd)
    (Nat.pos_of_dvd_of_pos x.otherTile_dvd x.otherRows_pos)

theorem outerRounds_pos : 0 < x.outerRounds := by
  unfold outerRounds
  split
  · exact x.rounds_pos
  · exact x.otherRounds_pos

theorem innerRounds_pos : 0 < x.innerRounds := by
  unfold innerRounds
  split
  · exact x.otherRounds_pos
  · exact x.rounds_pos

section Expected

variable (t : Tiling)

theorem length_round (o i : ℕ) :
    ((range t.kRounds).flatMap fun k => t.block x.tile (x.subTile o i * x.tile) k).length =
      t.kRounds * (x.tile * t.chunk) :=
  length_flatMap_range fun k => by simp

theorem length_outer (o : ℕ) :
    ((range x.innerRounds).flatMap fun i => (range t.kRounds).flatMap fun k =>
      t.block x.tile (x.subTile o i * x.tile) k).length = x.innerRounds * (t.kRounds * (x.tile * t.chunk)) :=
  length_flatMap_range fun i => x.length_round t o i

theorem length_expected :
    (x.expected t).length = x.outerRounds * (x.innerRounds * (t.kRounds * (x.tile * t.chunk))) :=
  length_flatMap_range fun o => x.length_outer t o

/-- The byte the cores consume at a position, by round, K round, row and byte of the row. -/
theorem expected_get {o i k r b : ℕ} (ho : o < x.outerRounds) (hi : i < x.innerRounds) (hk : k < t.kRounds)
    (hr : r < x.tile) (hb : b < t.chunk) :
    (x.expected t)[o * (x.innerRounds * (t.kRounds * (x.tile * t.chunk))) +
      (i * (t.kRounds * (x.tile * t.chunk)) +
      (k * (x.tile * t.chunk) + (r * t.chunk + b)))]? =
      some ((((x.subTile o i * x.tile + r) * t.kRounds + k) * t.chunk + b : ℕ) : ℤ) := by
  have h1 : r * t.chunk + b < x.tile * t.chunk := index_lt hr hb
  have h2 := index_lt hk h1
  have h3 := index_lt hi h2
  unfold expected
  rw [getElem?_flatMap_range (fun o => x.length_outer t o) ho h3,
    getElem?_flatMap_range (fun i => x.length_round t o i) hi h2,
    getElem?_flatMap_range (fun k => by simp) hk h1, t.block_eq,
    getElem?_flatMap_range (fun r => by simp) hr hb]
  simp [hb]

end Expected

end Operand

end AieHlc.Gemm
