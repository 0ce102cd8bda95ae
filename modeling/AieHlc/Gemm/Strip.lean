import AieHlc.Dma.Cover
import AieHlc.Lower.Packing

/-!
# Output strips of sub-tiled cores

The strip of output rows one shim channel receives: `numCoreTiles` tiles side by
side, each sent as sub-tiles of `tileM × tileN` elements.

* `Strip`: the sizes, with what makes them a strip that fits 32-bit offsets.
* `Strip.subTile`: the bytes of one sub-tile, row by row; `subTileAt` numbers the
  sub-tiles of a tile in the order of the policy.
* `Strip.Placed`: what a correct set of descriptors does.
* `Strip.nest_perm`: under either policy, the loops over words, rows, sub-tiles and
  tiles visit every byte of the strip once.
-/

namespace AieHlc.Gemm

open List AieHlc.Dma AieHlc.Word AieHlc.Lower

/-- An output strip with sub-tiles in M, its elements packed into 32-bit words. -/
structure Strip where
  tileM : ℕ
  tileRows : ℕ
  tileN : ℕ
  tileCols : ℕ
  numCoreTiles : ℕ
  bitWidth : ℕ
  tileM_dvd : tileM ∣ tileRows
  tileM_lt : tileM < tileRows
  tileN_dvd : tileN ∣ tileCols
  tileCols_pos : 0 < tileCols
  numCoreTiles_pos : 0 < numCoreTiles
  bitWidth_dvd : bitWidth ∣ 32
  aligned : 32 / bitWidth ∣ tileN
  /-- every byte offset is below `2^31` -/
  fits : tileRows * (numCoreTiles * tileCols) * bitWidth / 8 ≤ 2 ^ 31

namespace Strip

variable (s : Strip)

def outW : ℕ := s.numCoreTiles * s.tileCols

def bytes : ℕ := s.tileRows * s.outW * s.bitWidth / 8

def mRounds : ℕ := s.tileRows / s.tileM

def nRounds : ℕ := s.tileCols / s.tileN

/-- The bytes of sub-tile `(mi, ni)` of tile `t`, row by row. -/
def subTile (t mi ni : ℕ) : List ℤ :=
  (range s.tileM).flatMap fun row => (range (s.tileN * s.bitWidth / 8)).map fun b : ℕ =>
    ((((mi * s.tileM + row) * s.outW + (t * s.tileCols + ni * s.tileN)) * s.bitWidth / 8 + b : ℕ) : ℤ)

/-- Sub-tile number `k` of tile `t`: M outside and N inside, or the other way round. -/
def subTileAt (nOuter : Bool) (t k : ℕ) : List ℤ :=
  if nOuter then s.subTile t (k % s.mRounds) (k / s.mRounds) else s.subTile t (k / s.nRounds) (k % s.nRounds)

/-- Bytes of all descriptors, by tile, round, iteration and position. -/
def indices (rounds iters : ℕ) (bd : ℕ → ℕ → Bd) : Set Index :=
  {x | x.1 < s.numCoreTiles ∧ x.2.1 < rounds ∧ x.2.2.1 < iters ∧ x.2.2.2 < (bd x.2.1 x.1).len.toNat}

/-- The descriptors `bd r t` of round `r` and tile `t` place the strip. -/
structure Placed (nOuter : Bool) (rounds iters : ℕ) (bd : ℕ → ℕ → Bd) : Prop where
  iterations : ∀ r < rounds, ∀ t < s.numCoreTiles, (bd r t).iterations = iters
  /-- the length is that of the dimensions, which count words -/
  len : ∀ r < rounds, ∀ t < s.numCoreTiles, (bd r t).len = (4 * size (bd r t).dims : ℕ)
  bijOn : Set.BijOn (place bd) (s.indices rounds iters bd) {a | 0 ≤ a ∧ a < s.bytes}
  fire : ∀ t < s.numCoreTiles, ∀ r < rounds, ∀ i < iters,
    (bd r t).fire i = s.subTileAt nOuter t (r * iters + i)

/-! ## Sizes in words -/

def nWords : ℕ := s.tileN / (32 / s.bitWidth)

def tileBytes : ℕ := s.nRounds * (4 * s.nWords)

def rowBytes : ℕ := s.numCoreTiles * s.tileBytes

theorem tileRows_pos : 0 < s.tileRows := Nat.zero_lt_of_lt s.tileM_lt

theorem tileM_pos : 0 < s.tileM := Nat.pos_of_dvd_of_pos s.tileM_dvd s.tileRows_pos

theorem tileN_pos : 0 < s.tileN := Nat.pos_of_dvd_of_pos s.tileN_dvd s.tileCols_pos

theorem tileN_eq : s.tileN = 32 / s.bitWidth * s.nWords := (Nat.mul_div_cancel' s.aligned).symm

theorem tileCols_eq : s.tileCols = 32 / s.bitWidth * (s.nRounds * s.nWords) := by
  have h : s.tileCols = s.nRounds * s.tileN := (Nat.div_mul_cancel s.tileN_dvd).symm
  rw [s.tileN_eq] at h
  rw [h]
  ring

theorem outW_eq : s.outW = 32 / s.bitWidth * (s.numCoreTiles * (s.nRounds * s.nWords)) := by
  rw [outW, s.tileCols_eq]
  ring

theorem tileRows_eq : s.tileRows = s.mRounds * s.tileM := (Nat.div_mul_cancel s.tileM_dvd).symm

theorem nWords_pos : 0 < s.nWords :=
  Nat.pos_of_ne_zero fun h => by
    have := s.tileN_pos
    rw [s.tileN_eq, h] at this
    omega

theorem nRounds_pos : 0 < s.nRounds :=
  Nat.div_pos (Nat.le_of_dvd s.tileCols_pos s.tileN_dvd) s.tileN_pos

theorem one_lt_mRounds : 1 < s.mRounds := by
  have h := s.tileM_lt
  rw [s.tileRows_eq] at h
  exact (Nat.lt_mul_iff_one_lt_left s.tileM_pos).1 h

theorem tileBytes_pos : 0 < s.tileBytes := Nat.mul_pos s.nRounds_pos (Nat.mul_pos (by decide) s.nWords_pos)

theorem rowBytes_pos : 0 < s.rowBytes := Nat.mul_pos s.numCoreTiles_pos s.tileBytes_pos

theorem bytes_eq : s.bytes = s.mRounds * (s.tileM * s.rowBytes) := by
  have h : s.tileRows * s.outW =
      32 / s.bitWidth * (s.tileRows * (s.numCoreTiles * (s.nRounds * s.nWords))) := by
    rw [s.outW_eq]
    ring
  rw [bytes, h, bytes_of_words s.bitWidth_dvd, s.tileRows_eq, rowBytes, tileBytes]
  ring

theorem bytes_le : s.bytes ≤ 2 ^ 31 := s.fits

/-! Every size of the strip is at most that of the rows of one sub-tile, of which there are two or more. -/

theorem subRows_le : s.tileM * s.rowBytes ≤ 2 ^ 30 := by
  have h := Nat.mul_le_mul_right (s.tileM * s.rowBytes) s.one_lt_mRounds
  have hle := s.bytes_le
  rw [s.bytes_eq] at hle
  omega

theorem tileBytes_le_rowBytes : s.tileBytes ≤ s.rowBytes := Nat.le_mul_of_pos_left _ s.numCoreTiles_pos

theorem rowBytes_le : s.rowBytes ≤ s.tileM * s.rowBytes := Nat.le_mul_of_pos_left _ s.tileM_pos

theorem nBytes_le : 4 * s.nWords ≤ s.tileBytes := Nat.le_mul_of_pos_left _ s.nRounds_pos

theorem tileM_le : s.tileM ≤ s.tileM * s.rowBytes := Nat.le_mul_of_pos_right _ s.rowBytes_pos

theorem nRounds_le : s.nRounds ≤ s.tileBytes :=
  Nat.le_mul_of_pos_right _ (Nat.mul_pos (by decide) s.nWords_pos)

theorem sizes_lt : s.nWords < 2 ^ 31 ∧ s.tileBytes < 2 ^ 31 ∧ s.rowBytes < 2 ^ 31 ∧ s.tileM < 2 ^ 31 := by
  have h1 := s.nBytes_le
  have h2 := s.tileBytes_le_rowBytes
  have h3 := s.rowBytes_le
  have h4 := s.tileM_le
  have h5 := s.subRows_le
  omega

theorem mRounds_lt : s.mRounds < 2 ^ 31 := by
  have h4 : 4 ≤ s.tileM * s.rowBytes := by
    have := s.nBytes_le
    have := s.nWords_pos
    have := s.tileBytes_le_rowBytes
    have := s.rowBytes_le
    omega
  have h := Nat.mul_le_mul_left s.mRounds h4
  have hle := s.bytes_le
  rw [s.bytes_eq] at hle
  omega

/-- The first byte of a row of a sub-tile, as the descriptors count it. -/
theorem byte_addr (t mi ni row : ℕ) :
    ((mi * s.tileM + row) * s.outW + (t * s.tileCols + ni * s.tileN)) * s.bitWidth / 8 =
      t * s.tileBytes + mi * (s.tileM * s.rowBytes) + ni * (4 * s.nWords) + row * s.rowBytes := by
  have h : (mi * s.tileM + row) * s.outW + (t * s.tileCols + ni * s.tileN) =
      32 / s.bitWidth * ((mi * s.tileM + row) * (s.numCoreTiles * (s.nRounds * s.nWords)) +
        (t * (s.nRounds * s.nWords) + ni * s.nWords)) := by
    rw [s.outW_eq, s.tileCols_eq, s.tileN_eq]
    ring
  rw [h, bytes_of_words s.bitWidth_dvd, rowBytes, tileBytes]
  ring

theorem tileN_bytes : s.tileN * s.bitWidth / 8 = 4 * s.nWords := by
  rw [s.tileN_eq, bytes_of_words s.bitWidth_dvd]

/-- The dimensions of one sub-tile: words of a row, rows. -/
def dims : List Dim := [⟨4, s.nWords⟩, ⟨s.rowBytes, s.tileM⟩]

theorem size_dims : size s.dims = s.tileM * s.nWords := by simp [dims, size]

theorem size_dims_pos : 0 < size s.dims := by
  rw [s.size_dims]
  exact Nat.mul_pos s.tileM_pos s.nWords_pos

theorem len_lt : 4 * size s.dims < 2 ^ 31 := by
  have h : s.tileM * (4 * s.nWords) ≤ s.tileM * s.rowBytes :=
    Nat.mul_le_mul_left _ (le_trans s.nBytes_le s.tileBytes_le_rowBytes)
  have hle := s.subRows_le
  rw [s.size_dims]
  calc 4 * (s.tileM * s.nWords) = s.tileM * (4 * s.nWords) := by ring
    _ < 2 ^ 31 := by omega

/-- The length the output descriptor computes. -/
theorem descLen : Counted s.bitWidth (s.tileM * s.tileN * elementSizeBytes s.bitWidth) (4 * size s.dims) := by
  have h := counted_words s.bitWidth_dvd (s.tileM * s.nWords)
  rwa [mul_left_comm, ← s.tileN_eq, ← s.size_dims] at h

/-- A sub-tile is one walk over `dims` from its first byte. -/
theorem subTile_offsets (t mi ni : ℕ) :
    s.subTile t mi ni = (offsets (⟨1, 4⟩ :: s.dims)).map fun b =>
      ((t * s.tileBytes + mi * (s.tileM * s.rowBytes) + ni * (4 * s.nWords) : ℕ) : ℤ) + b := by
  have hrun : offsets (⟨1, 4⟩ :: s.dims) = offsets [⟨1, (s.nWords * 4 : ℕ)⟩, ⟨s.rowBytes, s.tileM⟩] :=
    offsets_run (n := 4) rfl _ _
  rw [hrun, subTile, s.tileN_bytes, offsets, map_flatMap]
  simp only [offsets, flatMap_singleton, flatMap_map, map_map, Int.toNat_natCast, s.byte_addr]
  refine flatMap_congr fun row _ => ?_
  rw [mul_comm 4]
  refine map_congr_left fun b _ => ?_
  simp only [Function.comp_apply]
  push_cast
  ring

theorem length_subTileAt (nOuter : Bool) (t k : ℕ) : (s.subTileAt nOuter t k).length = 4 * size s.dims := by
  have h : ∀ mi ni, (s.subTile t mi ni).length = 4 * size s.dims := by
    intro mi ni
    rw [s.subTile_offsets, length_map, length_offsets, Grid.size_bytes]
  unfold subTileAt
  split <;> exact h _ _

/-- A descriptor moves less than the whole strip, so its length is not truncated. -/
theorem len_lt_bytes : 4 * size s.dims < s.bytes := by
  have h : s.tileM * (4 * s.nWords) ≤ s.tileM * s.rowBytes :=
    Nat.mul_le_mul_left _ (le_trans s.nBytes_le s.tileBytes_le_rowBytes)
  have hpos : 0 < s.tileM * s.rowBytes := Nat.mul_pos s.tileM_pos s.rowBytes_pos
  have htwo := Nat.mul_le_mul_right (s.tileM * s.rowBytes) s.one_lt_mRounds
  rw [s.size_dims, s.bytes_eq]
  calc 4 * (s.tileM * s.nWords) = s.tileM * (4 * s.nWords) := by ring
    _ < s.mRounds * (s.tileM * s.rowBytes) := by omega

/-! ## The two loops of the policy -/

section Policy

variable (nOuter : Bool)

/-- Host rounds: the sub-tiles of the outer loop. -/
def rounds : ℕ := if nOuter then s.nRounds else s.mRounds

def perRound : ℕ := if nOuter then 4 * s.nWords else s.tileM * s.rowBytes

/-- Iterations of a descriptor: the sub-tiles of the inner loop. -/
def iters : ℕ := if nOuter then s.mRounds else s.nRounds

def perIter : ℕ := if nOuter then s.tileM * s.rowBytes else 4 * s.nWords

theorem iters_pos : 0 < s.iters nOuter := by
  cases nOuter
  · exact s.nRounds_pos
  · exact Nat.zero_lt_of_lt s.one_lt_mRounds

theorem rounds_pos : 0 < s.rounds nOuter := by
  cases nOuter
  · exact Nat.zero_lt_of_lt s.one_lt_mRounds
  · exact s.nRounds_pos

theorem iters_lt : s.iters nOuter < 2 ^ 31 := by
  cases nOuter
  · exact lt_of_le_of_lt s.nRounds_le s.sizes_lt.2.1
  · exact s.mRounds_lt

theorem perIter_lt : s.perIter nOuter < 2 ^ 31 := by
  cases nOuter
  · exact lt_of_le_of_lt s.nBytes_le s.sizes_lt.2.1
  · exact lt_of_le_of_lt s.subRows_le (by decide)

/-- The base of a round of a tile is not truncated either. -/
theorem base_lt {r t : ℕ} (hr : r < s.rounds nOuter) (ht : t < s.numCoreTiles) :
    t * s.tileBytes + r * s.perRound nOuter < 2 ^ 31 := by
  have htile : t * s.tileBytes + s.tileBytes ≤ s.rowBytes := by
    rw [← Nat.succ_mul]
    exact Nat.mul_le_mul_right _ ht
  have hpos := s.tileBytes_pos
  have hrow := s.rowBytes_le
  cases nOuter
  · -- rounds in M: the last one ends with the strip
    have hr' : (r + 1) * (s.tileM * s.rowBytes) ≤ s.mRounds * (s.tileM * s.rowBytes) :=
      Nat.mul_le_mul_right _ hr
    have hle := s.bytes_le
    rw [s.bytes_eq] at hle
    rw [Nat.succ_mul] at hr'
    show t * s.tileBytes + r * (s.tileM * s.rowBytes) < 2 ^ 31
    omega
  · -- rounds in N: within the row of the tile
    have hr' : (r + 1) * (4 * s.nWords) ≤ s.tileBytes := Nat.mul_le_mul_right _ hr
    have hle := s.subRows_le
    rw [Nat.succ_mul] at hr'
    show t * s.tileBytes + r * (4 * s.nWords) < 2 ^ 31
    omega

/-- The sub-tile of an iteration, in the order the kernel computes them. -/
theorem subTileAt_eq (t r : ℕ) {i : ℕ} (hi : i < s.iters nOuter) :
    s.subTileAt nOuter t (r * s.iters nOuter + i) = (offsets (⟨1, 4⟩ :: s.dims)).map fun b =>
      ((t * s.tileBytes + r * s.perRound nOuter + i * s.perIter nOuter : ℕ) : ℤ) + b := by
  have hdiv : (r * s.iters nOuter + i) / s.iters nOuter = r := by
    rw [mul_comm, Nat.mul_add_div (s.iters_pos nOuter), Nat.div_eq_of_lt hi, add_zero]
  have hmod : (r * s.iters nOuter + i) % s.iters nOuter = i := by
    rw [mul_comm, Nat.mul_add_mod, Nat.mod_eq_of_lt hi]
  cases nOuter
  · simp only [iters, Bool.false_eq_true, if_false] at hdiv hmod
    simp only [subTileAt, iters, perRound, perIter, Bool.false_eq_true, if_false, hdiv, hmod]
    exact s.subTile_offsets t r i
  · simp only [iters, if_true] at hdiv hmod
    simp only [subTileAt, iters, perRound, perIter, if_true, hdiv, hmod, s.subTile_offsets t i r]
    rw [add_right_comm]

/-- **All loops together** visit every byte of the strip once, whichever loop is outside. -/
theorem nest_perm :
    offsets (⟨1, 4⟩ :: s.dims ++ [⟨s.perIter nOuter, s.iters nOuter⟩, ⟨s.perRound nOuter, s.rounds nOuter⟩,
      ⟨s.tileBytes, s.numCoreTiles⟩]) ~ offsets [⟨1, s.bytes⟩] := by
  -- sorted by stride: words of a sub-tile row, sub-tiles in N, tiles, rows, sub-tiles in M
  have hsort : ⟨1, 4⟩ :: s.dims ++ [⟨s.perIter nOuter, s.iters nOuter⟩, ⟨s.perRound nOuter, s.rounds nOuter⟩,
      ⟨s.tileBytes, s.numCoreTiles⟩] ~
      [⟨1, 4⟩, ⟨4, s.nWords⟩, ⟨(4 * s.nWords : ℕ), s.nRounds⟩, ⟨s.tileBytes, s.numCoreTiles⟩,
        ⟨s.rowBytes, s.tileM⟩,
        ⟨(s.tileM * s.rowBytes : ℕ), s.mRounds⟩] := by
    refine .cons _ (.cons _ ?_)
    cases nOuter
    · exact (Perm.cons _ (.swap _ _ _)).trans (@perm_append_comm _ [_, _] [_, _])
    · exact @perm_append_comm _ [_, _] [_, _]
  refine (offsets_perm hsort).trans (Perm.of_eq ?_)
  have hb : s.bytes = s.mRounds * (s.tileM * (s.numCoreTiles * (s.nRounds * (s.nWords * 4)))) := by
    rw [s.bytes_eq, rowBytes, tileBytes, mul_comm 4]
  rw [hb]
  refine (offsets_run (n := 4) rfl _ _).trans ?_
  rw [offsets_run, offsets_run, offsets_run, offsets_run]
  · rw [rowBytes, tileBytes, mul_comm 4]
  · rw [rowBytes, tileBytes, mul_comm 4]
  · rw [tileBytes, mul_comm 4]
  · rw [mul_comm 4]

variable {nOuter} {bd : ℕ → ℕ → Bd}

/-- Descriptors on the grid of the rounds, tiles and iterations put every sub-tile in place. -/
theorem placed_of_grid (g : Grid s.numCoreTiles (s.rounds nOuter) (s.iters nOuter) s.tileBytes
    (s.perRound nOuter) (s.perIter nOuter) s.dims bd) (hlen : ∀ r t, (bd r t).len = (4 * size s.dims : ℕ)) :
    s.Placed nOuter (s.rounds nOuter) (s.iters nOuter) bd where
  iterations := by
    intro r hr t ht
    have hpos := s.iters_pos nOuter
    rw [Bd.iterations, g.iterWrap r hr t ht, if_pos (by omega), Int.toNat_natCast]
  len := by
    intro r hr t ht
    rw [hlen, g.dims r hr t ht]
  bijOn := by
    have hbij := g.bijOn (s.nest_perm nOuter) (nodup_contiguous _)
    have hbox : s.indices (s.rounds nOuter) (s.iters nOuter) bd =
        box s.numCoreTiles (s.rounds nOuter) (s.iters nOuter) (4 * size s.dims) := by
      ext ⟨t, r, i, p⟩
      refine and_congr_right fun _ => and_congr_right fun _ => and_congr_right fun _ => ?_
      rw [hlen, Int.toNat_natCast]
    simp only [mem_contiguous] at hbij
    rwa [hbox]
  fire := by
    intro t ht r hr i hi
    rw [g.fire_eq hr ht hi (hlen r t), s.subTileAt_eq nOuter t r hi]
    push_cast
    rfl

end Policy

end Strip

end AieHlc.Gemm
