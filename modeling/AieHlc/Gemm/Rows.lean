import AieHlc.Dma.Cover
import AieHlc.Lower.Packing

/-!
# Output strips without sub-tiles in M

A strip whose tiles are sent whole, in rounds. Each descriptor writes a slab of
rows per round, and the rows of a slab are the rows of the strip divided by the
number of rounds; the number of rounds is chosen without regard to rows.

* `RowStrip`: the sizes. No bound: offsets are truncated to 32 bits.
* `rowBd`: the descriptor of one tile for a given number of rounds.
* `RowStrip.Covered`: every byte is written once, and the rounds are all rows.
* `Covered.fits`, `covered_of_fits`: covered exactly where the rounds divide the rows
  and nothing is truncated.
-/

namespace AieHlc.Gemm

open List AieHlc.Dma AieHlc.Word AieHlc.Lower

/-- An output strip of several tiles, its elements packed into 32-bit words. -/
structure RowStrip where
  stripH : ℕ
  tileW : ℕ
  numCoreTiles : ℕ
  bitWidth : ℕ
  stripH_pos : 0 < stripH
  tileW_pos : 0 < tileW
  numCoreTiles_gt : 1 < numCoreTiles
  bitWidth_dvd : bitWidth ∣ 32
  aligned : 32 / bitWidth ∣ tileW

namespace RowStrip

variable (s : RowStrip)

def outW : ℕ := s.numCoreTiles * s.tileW

def bytes : ℕ := s.stripH * s.outW * s.bitWidth / 8

/-- The descriptors `bd t` of tile `t` cover the strip in `iters` iterations of `rows` rows. -/
structure Covered (rows iters : ℕ) (bd : ℕ → Bd) : Prop where
  iterations : ∀ t < s.numCoreTiles, (bd t).iterations = iters
  rowWrap : ∀ t < s.numCoreTiles, (bd t).dims[1]?.map Dim.wrap = some (rows : ℤ)
  rows_mul : rows * iters = s.stripH
  bijOn : Set.BijOn (fun x : ℕ × ℕ × ℕ => (bd x.1).addr x.2.1 x.2.2)
    {x | x.1 < s.numCoreTiles ∧ x.2.1 < iters ∧ x.2.2 < 4 * size (bd x.1).dims} {a | 0 ≤ a ∧ a < s.bytes}

theorem Covered.congr {s : RowStrip} {rows iters : ℕ} {bd bd' : ℕ → Bd} (h : s.Covered rows iters bd)
    (heq : ∀ t < s.numCoreTiles, bd t = bd' t) : s.Covered rows iters bd' where
  iterations := fun t ht => heq t ht ▸ h.iterations t ht
  rowWrap := fun t ht => heq t ht ▸ h.rowWrap t ht
  rows_mul := h.rows_mul
  bijOn := by
    have hset : {x : ℕ × ℕ × ℕ | x.1 < s.numCoreTiles ∧ x.2.1 < iters ∧ x.2.2 < 4 * size (bd' x.1).dims} =
        {x | x.1 < s.numCoreTiles ∧ x.2.1 < iters ∧ x.2.2 < 4 * size (bd x.1).dims} := by
      ext x
      exact and_congr_right fun ht => by rw [heq x.1 ht]
    rw [hset]
    refine h.bijOn.congr fun x hx => ?_
    simp only [heq x.1 hx.1]

def words : ℕ := s.tileW / (32 / s.bitWidth)

def tileBytes : ℕ := 4 * s.words

def rowBytes : ℕ := s.numCoreTiles * s.tileBytes

theorem tileW_eq : s.tileW = 32 / s.bitWidth * s.words := (Nat.mul_div_cancel' s.aligned).symm

theorem words_pos : 0 < s.words :=
  Nat.pos_of_ne_zero fun h => by
    have := s.tileW_pos
    rw [s.tileW_eq, h] at this
    omega

theorem tileBytes_pos : 0 < s.tileBytes := Nat.mul_pos (by decide) s.words_pos

theorem bytes_eq : s.bytes = s.stripH * s.rowBytes := by
  have h : s.stripH * s.outW = 32 / s.bitWidth * (s.stripH * (s.numCoreTiles * s.words)) := by
    rw [outW, s.tileW_eq]
    ring
  rw [bytes, h, bytes_of_words s.bitWidth_dvd, rowBytes, tileBytes]
  ring

def roundRows (n : ℕ) : ℤ := if 1 < n then (i32 s.stripH).tdiv n else i32 s.stripH

/-- The descriptor of tile `t` for `n` rounds. -/
def rowBd (n : ℕ) (len : ℤ) (t : ℕ) : Bd where
  offset := i32 (0 + i32 (t * i32 s.tileBytes))
  len := len
  dims := [⟨4, i32 s.words⟩, ⟨i32 s.rowBytes, i32 (s.roundRows n)⟩]
  iterStep := if 1 < i32 n then i32 (s.roundRows n * i32 s.rowBytes) else 0
  iterWrap := i32 n

/-- What fits 32 bits in `n` rounds: the rows, the last tile, the step to a second row of a round and to a
second round. -/
structure Fits (n : ℕ) : Prop where
  rows : s.stripH < 2 ^ 31
  tiles : (s.numCoreTiles - 1) * s.tileBytes < 2 ^ 31
  pitch : s.stripH / n = 1 ∨ s.rowBytes < 2 ^ 31
  rounds : n = 1 ∨ s.stripH / n * s.rowBytes < 2 ^ 31

/-! ## Rows and rounds -/

/-- Whole rounds: if rows per round and iterations multiply to the rows, truncated or not, the rounds divide
the rows and neither was truncated. -/
theorem roundRows_exact {n rows : ℕ} (hn : 0 < n) (hrows : i32 (s.roundRows n) = rows)
    (hmul : rows * (if 0 < i32 n then (i32 n).toNat else 1) = s.stripH) :
    s.stripH < 2 ^ 31 ∧ n * rows = s.stripH ∧ i32 n = n ∧ s.roundRows n = rows := by
  have hpos := s.stripH_pos
  have hrpos : 0 < rows := Nat.pos_of_mul_pos_right (hmul ▸ hpos)
  have hlt := i32_lt s.stripH
  have hge := neg_le_i32 s.stripH
  have hle := i32_le s.stripH
  have hfull : i32 s.stripH = s.stripH → s.stripH < 2 ^ 31 := i32_eq_iff.1
  have hone : i32 (1 : ℕ) = (1 : ℕ) := i32_of_lt (by decide)
  unfold roundRows at hrows ⊢
  generalize i32 s.stripH = w at *
  by_cases h1 : 1 < n
  · rw [if_pos h1] at hrows ⊢
    rcases Int.le_total 0 w with hw | hw
    · -- rounding down loses nothing only if nothing was there to lose
      obtain ⟨k, rfl⟩ := Int.eq_ofNat_of_zero_le hw
      have hq : (k : ℤ).tdiv n = (k / n : ℕ) := rfl
      have hkn : k / n ≤ k := Nat.div_le_self k n
      rw [hq, i32_of_lt (by omega)] at hrows
      have hr : k / n = rows := by exact_mod_cast hrows
      have hnk : n ≤ k := by
        by_contra h
        rw [Nat.div_eq_of_lt (by omega)] at hr
        omega
      have hin : i32 n = n := i32_of_lt (by omega)
      rw [hin, if_pos (by omega), Int.toNat_natCast] at hmul
      have hkle : k / n * n ≤ k := Nat.div_mul_le_self k n
      rw [hr, hmul] at hkle
      have hk : (k : ℤ) = s.stripH := by omega
      exact ⟨hfull hk, by rw [mul_comm, hmul], hin, by rw [hq, hr]⟩
    · obtain ⟨k, rfl⟩ : ∃ k : ℕ, w = -(k : ℤ) := ⟨w.natAbs, by omega⟩
      have hq : (-(k : ℤ)).tdiv n = -((k / n : ℕ) : ℤ) := Int.neg_tdiv ..
      have hkn : k / n ≤ k := Nat.div_le_self k n
      rw [hq] at hrows
      generalize k / n = q at hrows hkn
      rw [i32_of_range (by omega) (by omega)] at hrows
      omega
  · obtain rfl : n = 1 := by omega
    rw [if_neg (by decide), i32_of_range hge hlt] at hrows
    rw [if_neg (by decide)]
    rw [hone, if_pos (by decide)] at hmul
    have hr : rows = s.stripH := by simpa using hmul
    rw [hr] at hrows ⊢
    exact ⟨hfull hrows, one_mul _, hone, hrows⟩

/-! ## Truncated steps -/

section Steps

variable {s} {n rows : ℕ} (len : ℤ)

theorem rowBd_dims (hrows : s.roundRows n = rows) (hr : rows < 2 ^ 31) (hw : s.words < 2 ^ 31) (t : ℕ) :
    (s.rowBd n len t).dims = [⟨4, s.words⟩, ⟨i32 s.rowBytes, rows⟩] := by
  rw [rowBd, hrows, i32_of_lt hr, i32_of_lt hw]

def roundStep (s : RowStrip) (n rows : ℕ) : ℤ := if 1 < n then i32 (rows * s.rowBytes : ℕ) else 0

theorem rowBd_step (hrows : s.roundRows n = rows) (hin : i32 n = n) (t : ℕ) :
    (s.rowBd n len t).iterStep = roundStep s n rows := by
  show (if 1 < i32 n then i32 (s.roundRows n * i32 s.rowBytes) else 0) = _
  rw [hin, hrows, roundStep, i32_mul_right]
  push_cast
  exact if_congr (by omega) rfl rfl

theorem rowBd_addr (hrows : s.roundRows n = rows) (hr : rows < 2 ^ 31) (hw : s.words < 2 ^ 31)
    (hin : i32 n = n) (t : ℕ) {i r b : ℕ} (hi : i < n) (hrlt : r < rows) (hb : b < s.tileBytes) :
    (s.rowBd n len t).addr i (r * s.tileBytes + b) =
      i32 (t * s.tileBytes : ℕ) + i * roundStep s n rows + (b + r * i32 s.rowBytes) := by
  have hoff : (s.rowBd n len t).offset = i32 (t * s.tileBytes : ℕ) := by
    show i32 (0 + i32 (t * i32 s.tileBytes)) = _
    rw [Int.zero_add, i32_i32, i32_mul_right]
    push_cast
    rfl
  have hbytes : (s.rowBd n len t).byteDims = ⟨1, 4⟩ :: ⟨4, s.words⟩ :: [⟨i32 s.rowBytes, rows⟩] := by
    rw [Bd.byteDims, rowBd_dims len hrows hr hw, if_neg (cons_ne_nil _ _)]
  rw [Bd.addr, hoff, Bd.iter_of_lt _ (show (s.rowBd n len t).iterWrap = n from hin) hi,
    rowBd_step len hrows hin, hbytes, walk_words]
  rw [show 4 * s.words = s.tileBytes from rfl, walk_row _ _ _ hb]
  simp only [walk, Int.toNat_natCast, Nat.mod_eq_of_lt hrlt, Int.add_zero]

theorem exists_index {R a : ℕ} (ha : a < R * s.rowBytes) :
    ∃ r < R, ∃ t < s.numCoreTiles, ∃ b < s.tileBytes, a = r * s.rowBytes + (t * s.tileBytes + b) := by
  have hrow : 0 < s.rowBytes := Nat.mul_pos (Nat.zero_lt_of_lt s.numCoreTiles_gt) s.tileBytes_pos
  have hrem : a % s.rowBytes < s.numCoreTiles * s.tileBytes := Nat.mod_lt a hrow
  refine ⟨a / s.rowBytes, Nat.div_lt_of_lt_mul (by rwa [mul_comm]), a % s.rowBytes / s.tileBytes,
    Nat.div_lt_of_lt_mul (by rwa [mul_comm]), a % s.rowBytes % s.tileBytes, Nat.mod_lt _ s.tileBytes_pos, ?_⟩
  rw [Nat.div_add_mod' (a % s.rowBytes), Nat.div_add_mod']

variable {len} (hrows : s.roundRows n = rows) (hr : rows < 2 ^ 31) (hw : s.words < 2 ^ 31)
    (hin : i32 n = n) (hn : 0 < n)
  (hrpos : 0 < rows)
  (hbij : Set.BijOn (fun x : ℕ × ℕ × ℕ => (s.rowBd n len x.1).addr x.2.1 x.2.2)
    {x | x.1 < s.numCoreTiles ∧ x.2.1 < n ∧ x.2.2 < rows * s.tileBytes} {a | 0 ≤ a ∧ a < s.bytes})

include hbij in
/-- A step to a byte not yet written, past a part that covers all before it, was not truncated. -/
theorem exact_of_cover {I : Set (ℕ × ℕ × ℕ)} {x : ℕ} {y : ℕ × ℕ × ℕ}
    (hy : y.1 < s.numCoreTiles ∧ y.2.1 < n ∧ y.2.2 < rows * s.tileBytes) (hout : y ∉ I)
    (hval : (s.rowBd n len y.1).addr y.2.1 y.2.2 = i32 x)
    (hsub : ∀ z ∈ I, z.1 < s.numCoreTiles ∧ z.2.1 < n ∧ z.2.2 < rows * s.tileBytes)
    (hcover : ∀ a < x, ∃ z ∈ I, (s.rowBd n len z.1).addr z.2.1 z.2.2 = a) : i32 x = x := by
  have h0 := (hbij.mapsTo hy).1
  have hstep := step_eq_of_injOn hbij.injOn hsub hcover hy hout h0 (hval.trans_le (i32_le x))
  exact hval.symm.trans hstep

include hrows hr hw hin hn hrpos hbij

/-- The tiles are side by side: none of their offsets was truncated. -/
theorem tile_exact {t : ℕ} (ht : t < s.numCoreTiles) : i32 (t * s.tileBytes : ℕ) = (t * s.tileBytes : ℕ) := by
  have hu := s.tileBytes_pos
  have hfirst : ∀ {t b : ℕ}, b < s.tileBytes →
      (s.rowBd n len t).addr 0 b = i32 (t * s.tileBytes : ℕ) + b := by
    intro t b hb
    have h := rowBd_addr len hrows hr hw hin t hn hrpos hb
    simpa using h
  -- the tiles before it cover everything up to where it belongs
  induction t using Nat.strong_induction_on with
  | _ t ih =>
    refine exact_of_cover hbij (I := {x | x.1 < t ∧ x.2.1 = 0 ∧ x.2.2 < s.tileBytes}) (y := (t, 0, 0))
      ⟨ht, hn, Nat.mul_pos hrpos hu⟩ (fun h => lt_irrefl _ h.1) (by simpa using hfirst hu) ?_ ?_
    · rintro ⟨t', i, p⟩ ⟨h1, h2, h3⟩
      exact ⟨by simp only at h1 ⊢; omega,
        by simp only at h2 ⊢; omega, lt_of_lt_of_le h3 (Nat.le_mul_of_pos_left _ hrpos)⟩
    · intro a ha
      have ht' : a / s.tileBytes < t := Nat.div_lt_of_lt_mul (by rwa [mul_comm])
      refine ⟨(a / s.tileBytes, 0, a % s.tileBytes), ⟨ht', rfl, Nat.mod_lt _ hu⟩, ?_⟩
      show (s.rowBd n len _).addr 0 _ = _
      rw [hfirst (Nat.mod_lt _ hu), ih _ ht' (by omega), ← Nat.cast_add, Nat.div_add_mod']

theorem pitch_exact (h1 : 1 < rows) : i32 s.rowBytes = s.rowBytes := by
  have hu := s.tileBytes_pos
  have hT := Nat.zero_lt_of_lt s.numCoreTiles_gt
  have hval : (s.rowBd n len 0).addr 0 s.tileBytes = i32 s.rowBytes := by
    have h := rowBd_addr len hrows hr hw hin 0 hn h1 hu
    simpa using h
  refine exact_of_cover hbij (I := {x | x.1 < s.numCoreTiles ∧ x.2.1 = 0 ∧ x.2.2 < s.tileBytes})
    (y := (0, 0, s.tileBytes)) ⟨hT, hn, (Nat.lt_mul_iff_one_lt_left hu).2 h1⟩
      (fun h => lt_irrefl _ h.2.2) hval ?_ ?_
  · rintro ⟨t, i, p⟩ ⟨ht, hi, hp⟩
    exact ⟨ht, by simp only at hi ⊢; omega, lt_of_lt_of_le hp (Nat.le_mul_of_pos_left _ hrpos)⟩
  · intro a ha
    obtain ⟨r, hr1, t, ht, b, hb, rfl⟩ := exists_index (R := 1) (a := a) (by rwa [one_mul])
    obtain rfl : r = 0 := by omega
    refine ⟨(t, 0, b), ⟨ht, rfl, hb⟩, ?_⟩
    have h := rowBd_addr len hrows hr hw hin t hn hrpos hb
    have ht' := tile_exact hrows hr hw hin hn hrpos hbij ht
    rw [ht'] at h
    simpa using h

theorem round_exact (h1 : 1 < n) : i32 (rows * s.rowBytes : ℕ) = (rows * s.rowBytes : ℕ) := by
  have hu := s.tileBytes_pos
  have hT := Nat.zero_lt_of_lt s.numCoreTiles_gt
  have hval : (s.rowBd n len 0).addr 1 0 = i32 (rows * s.rowBytes : ℕ) := by
    have h := rowBd_addr len hrows hr hw hin 0 h1 hrpos hu
    simpa [roundStep, h1] using h
  refine exact_of_cover hbij (I := {x | x.1 < s.numCoreTiles ∧ x.2.1 = 0 ∧ x.2.2 < rows * s.tileBytes})
    (y := (0, 1, 0)) ⟨hT, h1, Nat.mul_pos hrpos hu⟩ (fun h => absurd h.2.1 (by decide)) hval ?_ ?_
  · rintro ⟨t, i, p⟩ ⟨ht, hi, hp⟩
    exact ⟨ht, by simp only at hi ⊢; omega, hp⟩
  · intro a ha
    obtain ⟨r, hrlt, t, ht, b, hb, rfl⟩ := exists_index ha
    refine ⟨(t, 0, r * s.tileBytes + b), ⟨ht, rfl, index_lt hrlt hb⟩, ?_⟩
    have h := rowBd_addr len hrows hr hw hin t hn hrlt hb
    rw [tile_exact hrows hr hw hin hn hrpos hbij ht] at h
    -- the pitch matters from the second row on
    have hpitch : (r : ℤ) * i32 s.rowBytes = r * s.rowBytes := by
      rcases Nat.eq_zero_or_pos r with rfl | hr0
      · simp
      · rw [pitch_exact hrows hr hw hin hn hrpos hbij (by omega)]
    rw [hpitch] at h
    show (s.rowBd n len t).addr 0 (r * s.tileBytes + b) = _
    rw [h]
    push_cast
    ring

end Steps

/-! ## Which strips are covered -/

/-- Where the strip is covered, the rounds are whole and nothing was truncated. -/
theorem Covered.fits {s : RowStrip} {n rows iters : ℕ} {len : ℤ} (hc : s.Covered rows iters (s.rowBd n len))
    (hn : 0 < n) : n ∣ s.stripH ∧ s.Fits n := by
  have hT := Nat.zero_lt_of_lt s.numCoreTiles_gt
  have hwrap : i32 (s.roundRows n) = rows := by simpa [rowBd] using hc.rowWrap 0 hT
  have hit : (if 0 < i32 n then (i32 n).toNat else 1) = iters := hc.iterations 0 hT
  obtain ⟨hH, hmul, hin, hrows⟩ := s.roundRows_exact hn hwrap (by rw [hit]; exact hc.rows_mul)
  have hiters : iters = n := by
    have hmul' := hc.rows_mul
    rw [← hmul, mul_comm n] at hmul'
    have hrpos : 0 < rows := Nat.pos_of_mul_pos_left (hmul ▸ s.stripH_pos)
    exact Nat.eq_of_mul_eq_mul_left hrpos hmul'
  subst hiters
  have hrpos : 0 < rows := Nat.pos_of_mul_pos_left (hmul ▸ s.stripH_pos)
  have hr : rows < 2 ^ 31 := lt_of_le_of_lt (Nat.le_mul_of_pos_left rows hn) (hmul ▸ hH)
  have hsize : ∀ t, size (s.rowBd iters len t).dims = rows * (i32 s.words).toNat := by
    intro t
    simp only [rowBd, size, hwrap, Int.toNat_natCast, one_mul]
  have hbij := hc.bijOn
  simp only [hsize] at hbij
  -- as many bytes are written as the strip has, so no word of a row is lost
  have hwords : (i32 s.words).toNat = s.words := by
    have hcard := card_of_bijOn hbij
    rw [s.bytes_eq, ← hmul, rowBytes, tileBytes] at hcard
    have hpos : 0 < s.numCoreTiles * (iters * rows * 4) :=
      Nat.mul_pos hT (Nat.mul_pos (Nat.mul_pos hn hrpos) (by decide))
    refine Nat.eq_of_mul_eq_mul_left hpos ?_
    calc s.numCoreTiles * (iters * rows * 4) * (i32 s.words).toNat
        = s.numCoreTiles * (iters * (4 * (rows * (i32 s.words).toNat))) := by ring
      _ = iters * rows * (s.numCoreTiles * (4 * s.words)) := hcard
      _ = s.numCoreTiles * (iters * rows * 4) * s.words := by ring
  have hw : s.words < 2 ^ 31 := (toNat_i32_eq_iff s.words_pos).1 hwords
  have hlen : 4 * (rows * s.words) = rows * s.tileBytes := by rw [tileBytes]; ring
  simp only [hwords, hlen] at hbij
  have hdiv : s.stripH / iters = rows := by rw [← hmul, Nat.mul_div_cancel_left _ hn]
  have hlast : s.numCoreTiles - 1 < s.numCoreTiles := by omega
  refine ⟨⟨rows, hmul.symm⟩, hH, ?_, ?_, ?_⟩
  · exact i32_eq_iff.1 (tile_exact hrows hr hw hin hn hrpos hbij hlast)
  · rw [hdiv]
    rcases lt_or_ge 1 rows with h1 | h1
    · exact Or.inr (i32_eq_iff.1 (pitch_exact hrows hr hw hin hn hrpos hbij h1))
    · exact Or.inl (by omega)
  · rw [hdiv]
    rcases lt_or_ge 1 iters with h1 | h1
    · exact Or.inr (i32_eq_iff.1 (round_exact hrows hr hw hin hn hrpos hbij h1))
    · exact Or.inl (by omega)

/-- **All loops together**: words, tiles, rows of a round, rounds. -/
theorem rowNest_perm {n rows : ℕ} (hn : 0 < n) (hmul : s.stripH = n * rows)
    (hpitch : rows = 1 ∨ s.rowBytes < 2 ^ 31) (hrounds : n = 1 ∨ rows * s.rowBytes < 2 ^ 31) :
    offsets ([⟨1, 4⟩, ⟨4, s.words⟩, ⟨i32 s.rowBytes, rows⟩] ++
      [⟨roundStep s n rows, n⟩, ⟨s.tileBytes, s.numCoreTiles⟩]) ~
      offsets [⟨1, s.bytes⟩] := by
  have hsort : ([⟨1, 4⟩, ⟨4, s.words⟩, ⟨i32 s.rowBytes, rows⟩] : List Dim) ++
      [⟨roundStep s n rows, n⟩, ⟨s.tileBytes, s.numCoreTiles⟩] ~
      [⟨1, 4⟩, ⟨4, s.words⟩, ⟨s.tileBytes, s.numCoreTiles⟩, ⟨i32 s.rowBytes, rows⟩,
        ⟨roundStep s n rows, n⟩] :=
    .cons _ (.cons _ (@perm_append_comm _ [_, _] [_]))
  have hrow : s.rowBytes = s.numCoreTiles * (s.words * 4) := by rw [rowBytes, tileBytes, mul_comm 4]
  have hp : rows = 1 ∨ i32 s.rowBytes = (s.numCoreTiles * (s.words * 4) : ℕ) := by
    rw [← hrow]
    exact hpitch.imp id i32_of_lt
  have hs : n = 1 ∨ roundStep s n rows = (rows * (s.numCoreTiles * (s.words * 4)) : ℕ) := by
    rw [← hrow]
    rcases hrounds with h | h
    · exact Or.inl h
    · rw [roundStep]
      split
      · exact Or.inr (i32_of_lt h)
      · exact Or.inl (by omega)
  have hb : s.bytes = n * (rows * (s.numCoreTiles * (s.words * 4))) := by
    rw [s.bytes_eq, hmul, hrow]
    ring
  refine (offsets_perm hsort).trans (Perm.of_eq ?_)
  rw [hb]
  refine (offsets_run (n := 4) rfl _ _).trans ?_
  rw [offsets_run, offsets_run_of hp, offsets_run_of hs]
  rw [tileBytes, mul_comm 4]

/-- Whole rounds, nothing truncated: every byte is written once. -/
theorem covered_of_fits {n : ℕ} (hn : 0 < n) (hdvd : n ∣ s.stripH) (hf : s.Fits n) (len : ℤ) :
    s.Covered (s.stripH / n) n (s.rowBd n len) := by
  obtain ⟨rows, hmul⟩ := hdvd
  have hdiv : s.stripH / n = rows := by rw [hmul, Nat.mul_div_cancel_left _ hn]
  have hrpos : 0 < rows := Nat.pos_of_mul_pos_left (hmul ▸ s.stripH_pos)
  have hT := s.numCoreTiles_gt
  have htiles := hf.tiles
  have hpitch := hf.pitch
  have hrounds := hf.rounds
  have hH := hf.rows
  rw [hdiv] at hpitch hrounds ⊢
  have hr : rows < 2 ^ 31 := lt_of_le_of_lt (Nat.le_mul_of_pos_left rows hn) (hmul ▸ hH)
  have hn' : n < 2 ^ 31 := lt_of_le_of_lt (Nat.le_mul_of_pos_right n hrpos) (hmul ▸ hH)
  have hw : s.words < 2 ^ 31 := by
    have h1 : s.tileBytes ≤ (s.numCoreTiles - 1) * s.tileBytes := Nat.le_mul_of_pos_left _ (by omega)
    have h2 : s.tileBytes = 4 * s.words := rfl
    omega
  have hin : i32 n = n := i32_of_lt hn'
  have hrows : s.roundRows n = rows := by
    rw [roundRows, i32_of_lt hH]
    split
    · rw [← hdiv]
      rfl
    · have h1 : n = 1 := by omega
      rw [hmul, h1, one_mul]
  have hdims := fun t => rowBd_dims len hrows hr hw t
  have hbase : ∀ t < s.numCoreTiles, i32 (0 + i32 (t * i32 s.tileBytes)) = (t * s.tileBytes : ℕ) := by
    intro t ht
    have hle : t * s.tileBytes ≤ (s.numCoreTiles - 1) * s.tileBytes := Nat.mul_le_mul_right _ (by omega)
    rw [Int.zero_add, i32_i32, i32_mul_right, ← Nat.cast_mul, i32_of_lt (lt_of_le_of_lt hle htiles)]
  have hgrid : Grid s.numCoreTiles 1 n s.tileBytes 0 (roundStep s n rows)
    [⟨4, s.words⟩, ⟨i32 s.rowBytes, rows⟩]
      fun _ t => s.rowBd n len t := by
    refine ⟨?_, fun _ _ t _ => hdims t, fun _ _ t _ => rowBd_step len hrows hin t, fun _ _ _ _ =>
      hin, cons_ne_nil _ _⟩
    intro r _ t ht
    rw [Int.mul_zero, Int.add_zero, ← Nat.cast_mul]
    exact hbase t ht
  have hsize : ∀ t, 4 * size (s.rowBd n len t).dims = 4 * size [⟨4, s.words⟩, ⟨i32 s.rowBytes, rows⟩] := by
    intro t
    rw [hdims t]
  refine ⟨?_, ?_, by rw [hmul, mul_comm], ?_⟩
  · intro t _
    show (if 0 < i32 n then (i32 n).toNat else 1) = n
    rw [hin, if_pos (by omega), Int.toNat_natCast]
  · intro t _
    rw [hdims t]
    rfl
  · have hbij := hgrid.bijOn_one (s.rowNest_perm hn hmul hpitch hrounds) (nodup_contiguous _)
    simp only [hsize]
    simpa only [mem_contiguous] using hbij

end RowStrip

end AieHlc.Gemm
