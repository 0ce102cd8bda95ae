import AieHlc.Dma.Cover
import AieHlc.Lower.Desc
import AieHlc.Lower.Packing

/-!
# Output of a convolution on a mesh

A rank-3 output tensor, row-major in the declared order of its dimensions. One
dimension is split over mesh rows and then over host rounds on the core, one over
mesh columns, one over the iterations of a descriptor; which is which is up to the
tiling attribute.

* `ConvOut`: the tiling attribute, with what makes it one.
* `ConvOut.block`: the bytes of one block; `ConvOut.share`: the bytes of one mesh row.
* `ConvOut.Scattered`, `ConvOut.TileMajor`: what correct descriptors do in the two layouts.
-/

namespace AieHlc.Conv

open List AieHlc.Dma AieHlc.Word AieHlc.Lower

/-- A tiling of a rank-3 output whose dimensions play the three roles, in any order. -/
structure ConvOut where
  d : Fin 3 → TilingDim
  row : Fin 3
  col : Fin 3
  iter : Fin 3
  row_axis : (d row).axis = 1
  col_axis : (d col).axis = 2
  iter_axis : (d iter).axis = 0
  /-- the on-core level of the mesh-row dimension -/
  core : Level
  row_core : (d row).outer.sliceTiling = some core
  col_core : (d col).outer.sliceTiling = none
  iter_core : (d iter).outer.sliceTiling = none
  core_rounds : 1 < core.rounds
  /-- its total is the mesh slice -/
  core_total : core.slice * core.rounds = (d row).outer.slice
  level : ∀ k, (d k).outer.slice * (d k).outer.rounds = (d k).outer.base
  base_pos : ∀ k, 0 < (d k).outer.base
  bitWidth : ℕ
  bitWidth_dvd : bitWidth ∣ 32
  aligned : 32 / bitWidth ∣ (d 2).blk
  /-- the last byte of a mesh row's share is below `2^31` -/
  fits : (((d 0).blk * (d 0).rounds - 1) * ((d 1).extent * (d 2).extent) +
    ((d 1).blk * (d 1).rounds - 1) * (d 2).extent + (d 2).blk * (d 2).rounds) * bitWidth / 8 ≤ 2 ^ 31

namespace ConvOut

variable (s : ConvOut)

/-- Mesh columns. -/
def numCoreTiles : ℕ := (s.d s.col).outer.rounds

def rounds : ℕ := s.core.rounds

def iters : ℕ := (s.d s.iter).outer.rounds

variable (k : Fin 3)

/-- Elements of a dimension in one block, and blocks of one mesh row. -/
def blk : ℕ := (s.d k).blk

def chunks : ℕ := (s.d k).rounds

/-- The first byte of a run of elements. -/
def byteAt (x0 x1 x2 : ℕ) : ℕ := ((x0 * (s.d 1).extent + x1) * (s.d 2).extent + x2) * s.bitWidth / 8

variable (c : Fin 3 → ℕ)

/-- The bytes of block number `c k` in each dimension, row by row. -/
def block : List ℤ :=
  (range (s.blk 0)).flatMap fun a => (range (s.blk 1)).flatMap fun b =>
    (range (s.blk 2 * s.bitWidth / 8)).map fun y : ℕ =>
      ((s.byteAt (c 0 * s.blk 0 + a) (c 1 * s.blk 1 + b) (c 2 * s.blk 2) + y : ℕ) : ℤ)

/-- The bytes of one mesh row's share of the tensor, row by row. -/
def share : List ℤ :=
  (range (s.blk 0 * s.chunks 0)).flatMap fun a => (range (s.blk 1 * s.chunks 1)).flatMap fun b =>
    (range (s.blk 2 * s.chunks 2 * s.bitWidth / 8)).map fun y : ℕ => ((s.byteAt a b 0 + y : ℕ) : ℤ)

def bytes : ℕ := s.blk 0 * s.chunks 0 * (s.blk 1 * s.chunks 1 * (s.blk 2 * s.chunks 2)) * s.bitWidth / 8

variable (r i t : ℕ)

/-- Row chunk `r`, on-core chunk `i`, column group `t`. -/
def chunkOf (k : Fin 3) : ℕ := if k = s.row then r else if k = s.col then t else i

/-- The descriptors `bd r t` of round `r` and tile `t` scatter the blocks into the tensor. -/
structure Scattered (rounds iters : ℕ) (bd : ℕ → ℕ → Bd) : Prop where
  iterations : ∀ r < rounds, ∀ t < s.numCoreTiles, (bd r t).iterations = iters
  bijOn : Set.BijOn (place bd)
    {x | x.1 < s.numCoreTiles ∧ x.2.1 < rounds ∧ x.2.2.1 < iters ∧ x.2.2.2 < (bd x.2.1 x.1).len.toNat}
    {a | a ∈ s.share}
  fire : ∀ t < s.numCoreTiles, ∀ r < rounds, ∀ i < iters, (bd r t).fire i ~ s.block (s.chunkOf r i t)

/-- The descriptors `bd t` of tile `t` write as many bytes as the share has, one after the other: ordered by
tile, then by round. -/
structure TileMajor (iters : ℕ) (bd : ℕ → Bd) : Prop where
  iterations : ∀ t < s.numCoreTiles, (bd t).iterations = iters
  stream : (range s.numCoreTiles).flatMap (fun t => (range iters).flatMap (bd t).fire) =
    (range s.bytes).map fun a : ℕ => (a : ℤ)

/-! ## Roles -/

/-- Rows, columns and iterations are three different axes. -/
theorem distinct : s.row ≠ s.col ∧ s.row ≠ s.iter ∧ s.col ≠ s.iter := by
  have hr := s.row_axis
  have hc := s.col_axis
  have hi := s.iter_axis
  refine ⟨?_, ?_, ?_⟩ <;> intro h
  · rw [h, hc] at hr
    exact absurd hr (by decide)
  · rw [h, hi] at hr
    exact absurd hr (by decide)
  · rw [h, hi] at hc
    exact absurd hc (by decide)

/-- The roles are the three dimensions, in some order. -/
theorem perm_roles : [s.iter, s.row, s.col] ~ [2, 1, 0] := by
  have hfin : ∀ a b c : Fin 3, a ≠ b ∧ a ≠ c ∧ b ≠ c → [c, a, b] ~ [2, 1, 0] := by decide
  exact hfin _ _ _ s.distinct

theorem role_cases : k = s.row ∨ k = s.col ∨ k = s.iter := by
  have hmem : k ∈ [s.iter, s.row, s.col] := s.perm_roles.mem_iff.2 (by revert k; decide)
  simp only [mem_cons, not_mem_nil, or_false] at hmem
  tauto

theorem chunkOf_row : s.chunkOf r i t s.row = r := if_pos rfl

theorem chunkOf_col : s.chunkOf r i t s.col = t := by
  rw [chunkOf, if_neg (Ne.symm s.distinct.1), if_pos rfl]

theorem chunkOf_iter : s.chunkOf r i t s.iter = i := by
  rw [chunkOf, if_neg (Ne.symm s.distinct.2.1), if_neg (Ne.symm s.distinct.2.2)]

theorem blk_row : s.blk s.row = s.core.slice := by rw [blk, TilingDim.blk, s.row_core]

theorem chunks_row : s.chunks s.row = s.rounds := by rw [chunks, TilingDim.rounds, s.row_core]; rfl

theorem blk_col : s.blk s.col = (s.d s.col).outer.slice := by rw [blk, TilingDim.blk, s.col_core]

theorem chunks_col : s.chunks s.col = s.numCoreTiles := by rw [chunks, TilingDim.rounds, s.col_core]; rfl

theorem blk_iter : s.blk s.iter = (s.d s.iter).outer.slice := by rw [blk, TilingDim.blk, s.iter_core]

theorem chunks_iter : s.chunks s.iter = s.iters := by rw [chunks, TilingDim.rounds, s.iter_core]; rfl

/-- An axis is cut into equal chunks of whole blocks. -/
theorem extent_eq : ∃ m, 0 < m ∧ (s.d k).extent = s.blk k * s.chunks k * m := by
  have hbase := s.base_pos k
  have hlevel := s.level k
  rcases s.role_cases k with rfl | rfl | rfl
  · refine ⟨(s.d s.row).outer.rounds, ?_, ?_⟩
    · exact Nat.pos_of_mul_pos_left (hlevel ▸ hbase)
    · rw [TilingDim.extent, ← hlevel, s.blk_row, s.chunks_row, rounds, s.core_total]
  · refine ⟨1, Nat.one_pos, ?_⟩
    rw [TilingDim.extent, ← hlevel, s.blk_col, s.chunks_col, mul_one]
    rfl
  · refine ⟨1, Nat.one_pos, ?_⟩
    rw [TilingDim.extent, ← hlevel, s.blk_iter, s.chunks_iter, mul_one]
    rfl

theorem blk_mul_chunks_pos : 0 < s.blk k * s.chunks k := by
  obtain ⟨m, -, h⟩ := s.extent_eq k
  have hbase : 0 < (s.d k).extent := s.base_pos k
  exact Nat.pos_of_mul_pos_right (h ▸ hbase)

theorem blk_pos : 0 < s.blk k := Nat.pos_of_mul_pos_right (s.blk_mul_chunks_pos k)

theorem chunks_pos : 0 < s.chunks k := Nat.pos_of_mul_pos_left (s.blk_mul_chunks_pos k)

theorem blk_mul_chunks_le : s.blk k * s.chunks k ≤ (s.d k).extent := by
  obtain ⟨m, hm, h⟩ := s.extent_eq k
  rw [h]
  exact Nat.le_mul_of_pos_right _ hm

theorem sum_roles (f : Fin 3 → ℕ) : f 0 + f 1 + f 2 = f s.col + f s.row + f s.iter := by
  have h := (s.perm_roles.map f).sum_eq
  simp only [map_cons, map_nil, sum_cons, sum_nil] at h
  omega

/-! ## Sizes in words -/

/-- Words of a row of a block, and of a row of the tensor. -/
def blkWords : ℕ := s.blk 2 / (32 / s.bitWidth)

def rowWords : ℕ := (s.d 2).extent / (32 / s.bitWidth)

/-- Bytes from one index of a dimension to the next; a word is the smallest step. -/
def pitch : Fin 3 → ℕ := ![4 * ((s.d 1).extent * s.rowWords), 4 * s.rowWords, 4]

/-- Indices of a dimension in one block, in units of its pitch. -/
def wrap : Fin 3 → ℕ := ![s.blk 0, s.blk 1, s.blkWords]

/-- Bytes from one block of a dimension to the next. -/
def step : ℕ := s.wrap k * s.pitch k

theorem blk_two : s.blk 2 = 32 / s.bitWidth * s.blkWords := (Nat.mul_div_cancel' s.aligned).symm

theorem extent_two : (s.d 2).extent = 32 / s.bitWidth * s.rowWords := by
  obtain ⟨m, -, h⟩ := s.extent_eq 2
  have hdvd : 32 / s.bitWidth ∣ (s.d 2).extent := by
    rw [h, mul_assoc]
    exact Dvd.dvd.mul_right s.aligned _
  exact (Nat.mul_div_cancel' hdvd).symm

theorem wrap_pos : 0 < s.wrap k := by
  have h2 : 0 < s.blkWords := Nat.pos_of_ne_zero fun h => by
    have := s.blk_pos 2
    rw [s.blk_two, h] at this
    omega
  match k with
  | 0 => exact s.blk_pos 0
  | 1 => exact s.blk_pos 1
  | 2 => exact h2

theorem rowWords_pos : 0 < s.rowWords := Nat.pos_of_ne_zero fun h => by
  have hbase : 0 < (s.d 2).extent := s.base_pos 2
  rw [s.extent_two, h] at hbase
  omega

theorem four_le_pitch : 4 ≤ s.pitch k := by
  have h1 := s.rowWords_pos
  have h0 : 0 < (s.d 1).extent * s.rowWords := Nat.mul_pos (s.base_pos 1) h1
  match k with
  | 0 => show 4 ≤ 4 * ((s.d 1).extent * s.rowWords); omega
  | 1 => show 4 ≤ 4 * s.rowWords; omega
  | 2 => exact le_refl 4

theorem four_le_step : 4 ≤ s.step k :=
  le_trans (s.four_le_pitch k) (Nat.le_mul_of_pos_left _ (s.wrap_pos k))

def blockBytes : ℕ := s.blk 0 * (s.blk 1 * (4 * s.blkWords))

theorem blk_two_bytes : s.blk 2 * s.bitWidth / 8 = 4 * s.blkWords := by
  rw [s.blk_two, bytes_of_words s.bitWidth_dvd]

theorem length_block : (s.block c).length = s.blockBytes := by
  rw [block, s.blk_two_bytes]
  exact length_flatMap_range fun a => length_flatMap_range fun b => by simp

theorem blockBytes_pos : 0 < s.blockBytes :=
  Nat.mul_pos (s.blk_pos 0) (Nat.mul_pos (s.blk_pos 1) (Nat.mul_pos (by decide) (s.wrap_pos 2)))

/-- The share is what all tiles write in all rounds. -/
theorem bytes_eq : s.bytes = s.numCoreTiles * (s.rounds * (s.iters * s.blockBytes)) := by
  have hw : s.blk 0 * s.chunks 0 * (s.blk 1 * s.chunks 1 * (s.blk 2 * s.chunks 2)) =
      32 / s.bitWidth * (s.chunks 0 * s.chunks 1 * s.chunks 2 * (s.blk 0 * (s.blk 1 * s.blkWords))) := by
    rw [s.blk_two]
    ring
  have hroles : s.chunks 0 * s.chunks 1 * s.chunks 2 = s.chunks s.row * s.chunks s.col * s.chunks s.iter := by
    have h := (s.perm_roles.map s.chunks).prod_eq
    simp only [map_cons, map_nil, prod_cons, prod_nil, mul_one] at h
    linarith
  rw [bytes, hw, bytes_of_words s.bitWidth_dvd, hroles, s.chunks_row, s.chunks_col, s.chunks_iter, blockBytes]
  ring

/-- The last byte any descriptor reaches. It bounds all steps and bases at once. -/
theorem reach_le : (s.chunks 0 - 1) * s.step 0 + (s.chunks 1 - 1) * s.step 1 + (s.chunks 2 - 1) * s.step 2 +
    ((s.wrap 0 - 1) * s.pitch 0 + (s.wrap 1 - 1) * s.pitch 1 + s.step 2) ≤ 2 ^ 31 := by
  have hsub : ∀ {b c : ℕ}, 0 < b → 0 < c → b * c - 1 = (c - 1) * b + (b - 1) := by
    intro b c hb hc
    obtain ⟨b', rfl⟩ : ∃ b', b = b' + 1 := ⟨b - 1, by omega⟩
    obtain ⟨c', rfl⟩ : ∃ c', c = c' + 1 := ⟨c - 1, by omega⟩
    simp only [Nat.add_sub_cancel]
    rw [Nat.mul_succ, mul_comm c', ← add_assoc, Nat.add_sub_cancel]
  have hlast : s.blk 2 * s.chunks 2 = 32 / s.bitWidth * ((s.chunks 2 - 1) * s.blkWords + s.blkWords) := by
    have hc := s.chunks_pos 2
    obtain ⟨c', hc'⟩ : ∃ c', s.chunks 2 = c' + 1 := ⟨s.chunks 2 - 1, by omega⟩
    rw [hc', s.blk_two, Nat.add_sub_cancel]
    ring
  have hfits := s.fits
  change ((s.blk 0 * s.chunks 0 - 1) * ((s.d 1).extent * (s.d 2).extent) +
    (s.blk 1 * s.chunks 1 - 1) * (s.d 2).extent + s.blk 2 * s.chunks 2) * s.bitWidth / 8 ≤ 2 ^ 31 at hfits
  have hw : (s.blk 0 * s.chunks 0 - 1) * ((s.d 1).extent * (s.d 2).extent) +
      (s.blk 1 * s.chunks 1 - 1) * (s.d 2).extent + s.blk 2 * s.chunks 2 =
      32 / s.bitWidth * (((s.chunks 0 - 1) * s.blk 0 + (s.blk 0 - 1)) * ((s.d 1).extent * s.rowWords) +
        ((s.chunks 1 - 1) * s.blk 1 + (s.blk 1 - 1)) * s.rowWords +
          ((s.chunks 2 - 1) * s.blkWords + s.blkWords)) := by
    rw [hsub (s.blk_pos 0) (s.chunks_pos 0), hsub (s.blk_pos 1) (s.chunks_pos 1), hlast, s.extent_two]
    ring
  rw [hw, bytes_of_words s.bitWidth_dvd] at hfits
  refine le_trans (le_of_eq ?_) hfits
  show (s.chunks 0 - 1) * (s.blk 0 * (4 * ((s.d 1).extent * s.rowWords))) +
    (s.chunks 1 - 1) * (s.blk 1 * (4 * s.rowWords)) + (s.chunks 2 - 1) * (s.blkWords * 4) +
    ((s.blk 0 - 1) * (4 * ((s.d 1).extent * s.rowWords)) + (s.blk 1 - 1) * (4 * s.rowWords) +
      s.blkWords * 4) = _
  ring

/-! ## What fits 32 bits -/

theorem chunk_reach : (s.chunks k - 1) * s.step k + 4 ≤ 2 ^ 31 := by
  have h := s.reach_le
  have h2 := s.four_le_step 2
  match k with
  | 0 => omega
  | 1 => omega
  | 2 => omega

/-- What one axis of a block reaches. -/
theorem wrap_reach : (s.wrap k - 1) * s.pitch k + 4 ≤ 2 ^ 31 := by
  have h := s.reach_le
  have h2 := s.four_le_step 2
  match k with
  | 0 => omega
  | 1 => omega
  | 2 =>
    have hstep : s.step 2 = s.wrap 2 * 4 := rfl
    have hpitch : s.pitch 2 = 4 := rfl
    rw [hpitch]
    omega

/-- A count and its pitch are in range if what they reach is. -/
theorem count_lt {n p : ℕ} (hp : 4 ≤ p) (h : (n - 1) * p + 4 ≤ 2 ^ 31) :
    n < 2 ^ 31 ∧ (n = 1 ∨ n = 0 ∨ p < 2 ^ 31) := by
  have h4 : (n - 1) * 4 ≤ (n - 1) * p := Nat.mul_le_mul_left _ hp
  refine ⟨by omega, ?_⟩
  rcases lt_or_ge 1 n with h1 | h1
  · have : p ≤ (n - 1) * p := Nat.le_mul_of_pos_left p (by omega)
    omega
  · omega

theorem chunks_lt : s.chunks k < 2 ^ 31 := (count_lt (s.four_le_step k) (s.chunk_reach k)).1

theorem wrap_lt : s.wrap k < 2 ^ 31 := (count_lt (s.four_le_pitch k) (s.wrap_reach k)).1

theorem step_lt : s.chunks k = 1 ∨ s.step k < 2 ^ 31 := by
  have h := (count_lt (s.four_le_step k) (s.chunk_reach k)).2
  have hpos := s.chunks_pos k
  omega

theorem pitch_lt : s.wrap k = 1 ∨ s.pitch k < 2 ^ 31 := by
  have h := (count_lt (s.four_le_pitch k) (s.wrap_reach k)).2
  have hpos := s.wrap_pos k
  omega

theorem base_lt {r t : ℕ} (hr : r < s.rounds) (ht : t < s.numCoreTiles) :
    t * s.step s.col + r * s.step s.row < 2 ^ 31 := by
  have h := s.reach_le
  have h2 := s.four_le_step 2
  rw [s.sum_roles fun k => (s.chunks k - 1) * s.step k] at h
  have hc : t * s.step s.col ≤ (s.chunks s.col - 1) * s.step s.col :=
    Nat.mul_le_mul_right _ (by rw [s.chunks_col]; omega)
  have hrow : r * s.step s.row ≤ (s.chunks s.row - 1) * s.step s.row :=
    Nat.mul_le_mul_right _ (by rw [s.chunks_row]; omega)
  omega

/-- A box inside a row-major tensor has no more points than it reaches over. -/
theorem box_le {a b c B C : ℕ} (ha : 0 < a) (hb : 0 < b) (hB : b ≤ B) (hC : c ≤ C) :
    a * (b * c) ≤ (a - 1) * (B * C) + ((b - 1) * C + c) := by
  obtain ⟨a', rfl⟩ : ∃ a', a = a' + 1 := ⟨a - 1, by omega⟩
  obtain ⟨b', rfl⟩ : ∃ b', b = b' + 1 := ⟨b - 1, by omega⟩
  have h1 : (b' + 1) * c ≤ B * C := Nat.mul_le_mul hB hC
  have h2 : b' * c ≤ b' * C := Nat.mul_le_mul_left _ hC
  have h3 : a' * ((b' + 1) * c) ≤ a' * (B * C) := Nat.mul_le_mul_left _ h1
  simp only [Nat.add_sub_cancel]
  calc (a' + 1) * ((b' + 1) * c) = a' * ((b' + 1) * c) + (b' * c + c) := by ring
    _ ≤ a' * (B * C) + (b' * C + c) := by omega

theorem bytes_le : s.bytes ≤ 2 ^ 31 := by
  have h := box_le (s.blk_mul_chunks_pos 0) (s.blk_mul_chunks_pos 1) (s.blk_mul_chunks_le 1)
    (s.blk_mul_chunks_le 2)
  refine le_trans (Nat.div_le_div_right (Nat.mul_le_mul_right _ h)) ?_
  rw [← add_assoc]
  exact s.fits

theorem rounds_gt : 1 < s.rounds := s.core_rounds

theorem numCoreTiles_pos : 0 < s.numCoreTiles := s.chunks_col ▸ s.chunks_pos s.col

theorem iters_pos : 0 < s.iters := s.chunks_iter ▸ s.chunks_pos s.iter

theorem iters_lt : s.iters < 2 ^ 31 := s.chunks_iter ▸ s.chunks_lt s.iter

theorem blockBytes_lt : 2 * s.blockBytes ≤ s.bytes := by
  rw [s.bytes_eq]
  calc 2 * s.blockBytes ≤ s.rounds * s.blockBytes := Nat.mul_le_mul_right _ s.rounds_gt
    _ ≤ s.rounds * (s.iters * s.blockBytes) := Nat.mul_le_mul_left _ (Nat.le_mul_of_pos_left _ s.iters_pos)
    _ ≤ s.numCoreTiles * (s.rounds * (s.iters * s.blockBytes)) := Nat.le_mul_of_pos_left _ s.numCoreTiles_pos

theorem blockBytes_fits : s.blockBytes < 2 ^ 31 := by
  have hlast := s.blockBytes_lt
  have hle := s.bytes_le
  omega

theorem four_dvd_blockBytes : 4 ∣ s.blockBytes := ⟨s.blk 0 * (s.blk 1 * s.blkWords), by rw [blockBytes]; ring⟩

theorem core_le : s.numCoreTiles * (s.rounds * s.iters * s.blockBytes) ≤ 2 ^ 31 := by
  have h := s.bytes_le
  rwa [s.bytes_eq, ← mul_assoc s.rounds] at h

theorem coreRounds_lt : s.rounds * s.iters < 2 ^ 31 := by
  have h := s.core_le
  have h4 : 4 ≤ s.blockBytes := Nat.le_of_dvd s.blockBytes_pos s.four_dvd_blockBytes
  have h1 := Nat.le_mul_of_pos_left (s.rounds * s.iters * s.blockBytes) s.numCoreTiles_pos
  have h2 := Nat.mul_le_mul_left (s.rounds * s.iters) h4
  omega

/-! ## Blocks and share as walks -/

theorem byteAt_words (x0 x1 n : ℕ) :
    s.byteAt x0 x1 (32 / s.bitWidth * n) = x0 * s.pitch 0 + x1 * s.pitch 1 + 4 * n := by
  have h : (x0 * (s.d 1).extent + x1) * (s.d 2).extent + 32 / s.bitWidth * n =
      32 / s.bitWidth * ((x0 * (s.d 1).extent + x1) * s.rowWords + n) := by
    rw [s.extent_two]
    ring
  rw [byteAt, h, bytes_of_words s.bitWidth_dvd]
  show _ = x0 * (4 * ((s.d 1).extent * s.rowWords)) + x1 * (4 * s.rowWords) + 4 * n
  ring

/-- The dimensions of a block: words of a row, rows, planes. -/
def dims : List Dim := [⟨4, s.wrap 2⟩, ⟨s.pitch 1, s.wrap 1⟩, ⟨s.pitch 0, s.wrap 0⟩]

/-- The blocks of one dimension as a dimension. -/
def chunkDim : Dim := ⟨s.step k, s.chunks k⟩

theorem size_dims : 4 * size s.dims = s.blockBytes := by
  simp only [dims, size, Int.toNat_natCast, blockBytes]
  show 4 * (1 * s.blk 0 * s.blk 1 * s.blkWords) = s.blk 0 * (s.blk 1 * (4 * s.blkWords))
  ring

/-- A block is one walk over `dims` from its first byte. -/
theorem block_offsets :
    s.block c = (offsets (⟨1, 4⟩ :: s.dims)).map fun b =>
      ((c 0 * s.step 0 + c 1 * s.step 1 + c 2 * s.step 2 : ℕ) : ℤ) + b := by
  have hrun : offsets (⟨1, 4⟩ :: s.dims) =
      offsets [⟨1, (s.wrap 2 * 4 : ℕ)⟩, ⟨s.pitch 1, s.wrap 1⟩, ⟨s.pitch 0, s.wrap 0⟩] :=
        offsets_run (n := 4) rfl _ _
  have hc2 : c 2 * s.blk 2 = 32 / s.bitWidth * (c 2 * s.blkWords) := by
    rw [s.blk_two]
    ring
  rw [hrun, block, s.blk_two_bytes]
  simp only [offsets, flatMap_singleton, flatMap_map, map_flatMap, map_map, flatMap_assoc,
    Int.toNat_natCast, hc2,
    s.byteAt_words]
  refine flatMap_congr fun a _ => flatMap_congr fun b _ => ?_
  rw [show s.wrap 2 * 4 = 4 * s.blkWords from mul_comm _ _]
  refine map_congr_left fun y _ => ?_
  simp only [Function.comp_apply, step]
  rw [show s.wrap 0 = s.blk 0 from rfl, show s.wrap 1 = s.blk 1 from rfl, show s.wrap 2 = s.blkWords from rfl,
    show s.pitch 2 = 4 from rfl]
  push_cast
  ring

/-- The whole share, as one walk. -/
theorem share_offsets : s.share = offsets [⟨1, (s.chunks 2 * (s.wrap 2 * 4) : ℕ)⟩,
    ⟨s.pitch 1, (s.chunks 1 * s.wrap 1 : ℕ)⟩, ⟨s.pitch 0, (s.chunks 0 * s.wrap 0 : ℕ)⟩] := by
  have hrow : s.blk 2 * s.chunks 2 * s.bitWidth / 8 = s.chunks 2 * (s.wrap 2 * 4) := by
    have h : s.blk 2 * s.chunks 2 = 32 / s.bitWidth * (s.chunks 2 * s.blkWords) := by
      rw [s.blk_two]
      ring
    rw [h, bytes_of_words s.bitWidth_dvd]
    show 4 * (s.chunks 2 * s.blkWords) = s.chunks 2 * (s.blkWords * 4)
    ring
  have hzero : ∀ a b, s.byteAt a b 0 = a * s.pitch 0 + b * s.pitch 1 := fun a b => by
    have h := s.byteAt_words a b 0
    simpa using h
  rw [share, hrow]
  simp only [offsets, flatMap_singleton, flatMap_map, flatMap_assoc, Int.toNat_natCast, hzero]
  rw [mul_comm (s.blk 0), mul_comm (s.blk 1)]
  refine flatMap_congr fun a _ => flatMap_congr fun b _ => map_congr_left fun y _ => ?_
  push_cast
  ring

theorem length_share : s.share.length = s.bytes := by
  rw [s.share_offsets, length_offsets]
  simp only [size, Int.toNat_natCast]
  have hw : s.blk 0 * s.chunks 0 * (s.blk 1 * s.chunks 1 * (s.blk 2 * s.chunks 2)) =
      32 / s.bitWidth * (s.blk 0 * s.chunks 0 * (s.blk 1 * s.chunks 1 * (s.blkWords * s.chunks 2))) := by
    rw [s.blk_two]
    ring
  rw [bytes, hw, bytes_of_words s.bitWidth_dvd]
  show 1 * (s.chunks 0 * s.blk 0) * (s.chunks 1 * s.blk 1) * (s.chunks 2 * (s.blkWords * 4)) = _
  ring

/-- No byte of the share is written twice: a row of it is shorter than its pitch. -/
theorem nodup_share : s.share.Nodup := by
  have h1 : s.chunks 1 * s.wrap 1 ≤ (s.d 1).extent := by
    rw [mul_comm]
    exact s.blk_mul_chunks_le 1
  have h2 : s.chunks 2 * (s.wrap 2 * 4) ≤ 4 * s.rowWords := by
    have hle := s.blk_mul_chunks_le 2
    rw [s.blk_two, s.extent_two, mul_assoc] at hle
    have hle' := Nat.le_of_mul_le_mul_left hle (perWord_pos s.bitWidth_dvd)
    calc s.chunks 2 * (s.wrap 2 * 4) = 4 * (s.blkWords * s.chunks 2) := by
          rw [show s.wrap 2 = s.blkWords from rfl]
          ring
      _ ≤ 4 * s.rowWords := Nat.mul_le_mul_left _ hle'
  have hsub : offsets [⟨1, (s.chunks 2 * (s.wrap 2 * 4) : ℕ)⟩, ⟨s.pitch 1, (s.chunks 1 * s.wrap 1 : ℕ)⟩,
      ⟨s.pitch 0, (s.chunks 0 * s.wrap 0 : ℕ)⟩] <+
      offsets [⟨1, (4 * s.rowWords : ℕ)⟩, ⟨s.pitch 1, (s.d 1).extent⟩,
        ⟨s.pitch 0, (s.chunks 0 * s.wrap 0 : ℕ)⟩] := by
    refine offsets_sublist (.cons ⟨rfl, ?_⟩ (.cons ⟨rfl, ?_⟩ (.cons ⟨rfl, le_refl _⟩ .nil)))
    · exact Int.ofNat_le.2 h2
    · exact Int.ofNat_le.2 h1
  rw [s.share_offsets]
  refine Nodup.sublist hsub ?_
  have hpitch : ((s.pitch 1 : ℕ) : ℤ) = (4 * s.rowWords : ℕ) := rfl
  rw [offsets_run hpitch, offsets_run]
  · exact nodup_contiguous _
  · show ((4 * ((s.d 1).extent * s.rowWords) : ℕ) : ℤ) = _
    rw [mul_left_comm]

/-- **All loops together** visit every byte of the share once, whatever the roles. -/
theorem nest_perm : offsets
    (⟨1, 4⟩ :: s.dims ++ [s.chunkDim s.iter, s.chunkDim s.row, s.chunkDim s.col]) ~ s.share := by
  -- each dimension next to the loop over its blocks
  have hsort : ⟨1, 4⟩ :: s.dims ++ [s.chunkDim s.iter, s.chunkDim s.row, s.chunkDim s.col] ~
      [⟨1, 4⟩, ⟨4, s.wrap 2⟩, s.chunkDim 2, ⟨s.pitch 1, s.wrap 1⟩, s.chunkDim 1,
        ⟨s.pitch 0, s.wrap 0⟩, s.chunkDim 0] := by
    refine (Perm.append_left _ (s.perm_roles.map s.chunkDim)).trans (.cons _ (.cons _ ?_))
    refine (@perm_append_comm _ [_, _] [_]).append_right _ |>.trans (.cons _ (.cons _ ?_))
    exact .swap _ _ _
  have hmerge : ∀ (k : Fin 3) (ds : List Dim), offsets (⟨s.pitch k, s.wrap k⟩ :: s.chunkDim k :: ds) =
      offsets (⟨s.pitch k, (s.chunks k * s.wrap k : ℕ)⟩ :: ds) := by
    intro k ds
    rw [← offsets_merge, chunkDim, step]
    push_cast
    rfl
  refine (offsets_perm hsort).trans (Perm.of_eq ?_)
  refine (offsets_run (n := 4) rfl _ _).trans ?_
  rw [chunkDim, offsets_run (show ((s.step 2 : ℕ) : ℤ) = (s.wrap 2 * 4 : ℕ) from rfl), s.share_offsets]
  refine offsets_cons_congr ?_ _
  rw [hmerge 1]
  exact offsets_cons_congr (hmerge 0 []) _

/-- Descriptors on the grid of the roles place the output, also where a step that is never taken is wrong. -/
theorem scattered_of_grid {e : ℤ} {ds : List Dim} {bd : ℕ → ℕ → Bd} (he : s.iters = 1 ∨ e = s.step s.iter)
    (hds : Forall₂ Dim.Same ds s.dims)
    (g : Grid s.numCoreTiles s.rounds s.iters (s.step s.col) (s.step s.row) e ds bd)
    (hlen : ∀ r t, (bd r t).len = s.blockBytes) : s.Scattered s.rounds s.iters bd := by
  have hsize : 4 * size ds = s.blockBytes := by rw [size_same hds, s.size_dims]
  have hlen' : ∀ r t, (bd r t).len = (4 * size ds : ℕ) := fun r t => by rw [hlen, hsize]
  refine ⟨?_, ?_, ?_⟩
  · intro r hr t ht
    have hpos := s.iters_pos
    rw [Bd.iterations, g.iterWrap r hr t ht, if_pos (by omega), Int.toNat_natCast]
  · have hsame : Forall₂ Dim.Same
        (⟨1, 4⟩ :: ds ++ [⟨e, s.iters⟩, ⟨s.step s.row, s.rounds⟩, ⟨s.step s.col, s.numCoreTiles⟩])
        (⟨1, 4⟩ :: s.dims ++ [s.chunkDim s.iter, s.chunkDim s.row, s.chunkDim s.col]) := by
      refine rel_append (.cons (Dim.Same.refl _) hds) (.cons ⟨?_, ?_⟩ (.cons ⟨?_, ?_⟩ (.cons ⟨?_, ?_⟩ .nil)))
      · rw [chunkDim, s.chunks_iter]
      · exact he.imp (fun h => by rw [h]; rfl) id
      · rw [chunkDim, s.chunks_row]
      · exact Or.inr rfl
      · rw [chunkDim, s.chunks_col]
      · exact Or.inr rfl
    have hperm := s.nest_perm
    rw [← offsets_same hsame] at hperm
    have hbij := g.bijOn hperm s.nodup_share
    simp only [hlen', Int.toNat_natCast]
    exact hbij
  · intro t ht r hr i hi
    have hstep : (i : ℤ) * e = i * s.step s.iter := by
      rcases he with h | h
      · obtain rfl : i = 0 := by omega
        simp
      · rw [h]
    rw [g.fire_eq hr ht hi (hlen' r t), s.block_offsets, offsets_same (.cons (Dim.Same.refl _) hds), hstep]
    refine Perm.of_eq (map_congr_left fun b _ => ?_)
    have hsum := s.sum_roles fun k => s.chunkOf r i t k * s.step k
    rw [hsum, s.chunkOf_row, s.chunkOf_col, s.chunkOf_iter]
    push_cast
    ring

/-- Contiguous rounds one after the other, tile by tile. -/
theorem tileMajor_of_grid {ds : List Dim} {bd : ℕ → Bd}
    (hds : offsets (⟨1, 4⟩ :: ds) = offsets [⟨1, s.blockBytes⟩])
    (g : Grid s.numCoreTiles 1 (s.rounds * s.iters) (s.rounds * s.iters * s.blockBytes : ℕ) 0 s.blockBytes ds
      fun _ => bd)
    (hlen : ∀ t, (bd t).len = s.blockBytes) : s.TileMajor (s.rounds * s.iters) bd := by
  have hsize : 4 * size ds = s.blockBytes := by
    have h := congrArg length hds
    rw [length_offsets, length_offsets, Grid.size_bytes] at h
    simpa [size] using h
  have hpos : 0 < s.rounds * s.iters := Nat.mul_pos (Nat.zero_lt_of_lt s.rounds_gt) s.iters_pos
  refine ⟨?_, ?_⟩
  · intro t ht
    rw [Bd.iterations, g.iterWrap 0 Nat.one_pos t ht, if_pos (by omega), Int.toNat_natCast]
  · have hfire : ∀ t < s.numCoreTiles, ∀ i < s.rounds * s.iters, (bd t).fire i =
        (range s.blockBytes).map fun b : ℕ =>
          ((t * (s.rounds * s.iters * s.blockBytes) + (i * s.blockBytes + b) : ℕ) : ℤ) := by
      intro t ht i hi
      rw [g.fire_eq Nat.one_pos ht hi (by rw [hlen, hsize]), hds, offsets_contiguous, map_map]
      refine map_congr_left fun b _ => ?_
      simp only [Function.comp_apply]
      push_cast
      ring
    rw [s.bytes_eq, ← mul_assoc s.rounds, map_range_mul]
    refine flatMap_congr fun t ht => ?_
    rw [map_range_mul]
    exact flatMap_congr fun i hi => hfire t (mem_range.1 ht) i (mem_range.1 hi)

end ConvOut

end AieHlc.Conv
