import AieHlc.Gemm.Tiling

/-!
# What the shim sends for a GEMM input, and when it is right

The shim program of one input, in closed form: descriptor, host loop and repeat
count as the two passes choose them, each with its own test for sub-tiles. The
stream it sends is compared with the blocks the cores consume.

* `Operand.sent`: the stream; `sent_get`: its bytes by position.
* `sent_eq_iff_whole`: no sub-tiles in either input.
* `sent_eq_iff_split`: sub-tiles in both inputs.
* `sent_ne_outer`, `sent_ne_whole`, `bitWidth_of_sent_inner`: sub-tiles in one of
  the two only.
-/

namespace AieHlc.Gemm

open List AieHlc.Dma AieHlc.Word AieHlc.Lower

namespace Operand

variable (x : Operand) (t : Tiling) (threeD : Bool)

def InnerSplit : Prop := if x.outer then x.otherTile < x.otherRows else x.tile < x.rows

instance : Decidable x.InnerSplit := by
  unfold InnerSplit
  infer_instance

def len : ℕ :=
  if x.tile < x.rows then x.tile * t.effectiveK * t.kRounds else x.rows * t.fullK * t.elemBytes / t.kRounds

/-- Words of a K round, rows, and with `threeD` the K rounds. -/
def dims : List Dim :=
  if threeD then
    [⟨4, i32 t.kWords⟩, ⟨i32 (t.kWords * t.kRounds * 4 : ℕ), i32 x.tile⟩,
      ⟨i32 (t.kWords * 4 : ℕ), i32 t.kRounds⟩]
  else [⟨4, i32 t.kWords⟩, ⟨i32 (t.kWords * t.kRounds * 4 : ℕ), i32 x.rows⟩]

/-- Rows the inner dimensions cover. -/
def dimRows : ℕ := if threeD then x.tile else x.rows

def iterPair : ℤ × ℤ :=
  if x.tile < x.rows then
    if x.outer then (0, 0) else (i32 (x.tile * t.fullK * t.elemBytes : ℕ), i32 x.rounds)
  else (i32 (t.effectiveK * t.elemBytes : ℕ), i32 t.kRounds)

def stride : ℕ := if x.outer then x.tile * t.fullK * t.elemBytes else 0

def repeats : ℤ := if x.InnerSplit then i32 x.innerRounds else i32 t.kRounds

/-- The descriptor of iteration `iv` of the host loop. -/
def bd (iv : ℕ) : Bd where
  offset := i32 (i32 iv * i32 (x.stride t))
  len := i32 (x.len t)
  dims := x.dims t threeD
  iterStep := (x.iterPair t).1
  iterWrap := (x.iterPair t).2

/-- The stream: one start for each iteration of the host loop. -/
def sent : List ℤ := (range x.outerRounds).flatMap fun iv => (x.bd t threeD iv).start (x.repeats t)

theorem bd_len (iv : ℕ) : (x.bd t threeD iv).len = i32 (x.len t) := rfl

theorem length_start_bd (iv : ℕ) (n : ℤ) :
    ((x.bd t threeD iv).start n).length = n.toNat * (i32 (x.len t)).toNat := by
  rw [Bd.length_start, bd_len]

theorem length_sent :
    (x.sent t threeD).length = x.outerRounds * ((x.repeats t).toNat * (i32 (x.len t)).toNat) :=
  length_flatMap_range fun iv => x.length_start_bd t threeD iv _

theorem sent_get {o j p : ℕ} (ho : o < x.outerRounds) (hj : j < (x.repeats t).toNat)
    (hp : p < (i32 (x.len t)).toNat) :
    (x.sent t threeD)[o * ((x.repeats t).toNat * (i32 (x.len t)).toNat) + (j * (i32 (x.len t)).toNat + p)]? =
      some ((x.bd t threeD o).addr j p) := by
  have hlt : j * (i32 (x.len t)).toNat + p < (x.repeats t).toNat * (i32 (x.len t)).toNat := index_lt hj hp
  unfold sent
  rw [getElem?_flatMap_range (fun iv => x.length_start_bd t threeD iv _) ho hlt]
  unfold Bd.start
  have hfire : ∀ j, ((x.bd t threeD o).fire j).length = (i32 (x.len t)).toNat := by
    intro j
    rw [Bd.fire, length_map, length_range, bd_len]
  rw [getElem?_flatMap_range hfire hj hp, Bd.fire, bd_len]
  simp [hp]

variable {x t threeD}

theorem count_eq (h : x.sent t threeD = x.expected t) :
    (x.repeats t).toNat * (i32 (x.len t)).toNat = x.innerRounds * (t.kRounds * (x.tile * t.chunk)) := by
  have hlen := congrArg length h
  rw [x.length_sent, x.length_expected] at hlen
  exact Nat.eq_of_mul_eq_mul_left x.outerRounds_pos hlen

theorem bd_zero_offset : (x.bd t threeD 0).offset = 0 := by
  simp [bd]

theorem dims_ne_nil : x.dims t threeD ≠ [] := by
  unfold dims
  split <;> simp

theorem byteDims_bd (iv : ℕ) : (x.bd t threeD iv).byteDims = ⟨1, 4⟩ :: x.dims t threeD :=
  if_neg dims_ne_nil

/-! ## Lengths -/

theorem rounds_whole (h : x.tile = x.rows) : x.rounds = 1 := by
  unfold rounds
  rw [h, Nat.div_self x.rows_pos]

theorem otherRounds_whole (h : x.otherTile = x.otherRows) : x.otherRounds = 1 := by
  unfold otherRounds
  rw [h, Nat.div_self x.otherRows_pos]

theorem len_split (h : x.tile < x.rows) : x.len t = x.tile * t.effectiveK * t.kRounds := if_pos h

theorem len_whole (h : x.tile = x.rows) : x.len t = x.rows * (t.effectiveK * t.elemBytes) := by
  unfold len
  have hmul : x.rows * (t.effectiveK * t.kRounds) * t.elemBytes =
      x.rows * (t.effectiveK * t.elemBytes) * t.kRounds := by ring
  rw [if_neg (by omega), t.fullK_eq, hmul, Nat.mul_div_cancel _ t.kRounds_pos]

/-- With sub-tiles inside, the lengths leave out the element size: they fit bytes only. -/
theorem count_split (h : x.tile < x.rows) (hi : x.InnerSplit) (hs : x.sent t threeD = x.expected t) :
    t.bitWidth = 8 ∧ x.innerRounds < 2 ^ 31 ∧ x.tile * t.effectiveK * t.kRounds < 2 ^ 31 := by
  have hc := count_eq hs
  rw [repeats, if_pos hi, len_split h] at hc
  have hpos : 0 < x.tile * t.effectiveK * t.kRounds :=
    Nat.mul_pos (Nat.mul_pos x.tile_pos t.effectiveK_pos) t.kRounds_pos
  have hscale : (i32 x.innerRounds).toNat * (i32 (x.tile * t.effectiveK * t.kRounds : ℕ)).toNat *
    t.elemsPerWord =
      4 * (x.innerRounds * (x.tile * t.effectiveK * t.kRounds)) := by
    rw [hc, t.effectiveK_eq, Tiling.chunk]
    ring
  obtain ⟨h4, h1, h2⟩ := i32_mul_scaled x.innerRounds_pos hpos t.elemsPerWord_dvd hscale
  exact ⟨t.bitWidth_eq_of_perWord h4, h1, h2⟩

/-- Sub-tiles in the inner loop only, those of this operand: only bytes can be right. -/
theorem bitWidth_of_sent_inner (h : x.tile < x.rows) (ho : x.outer = false)
    (hs : x.sent t threeD = x.expected t) : t.bitWidth = 8 := by
  refine (count_split h ?_ hs).1
  unfold InnerSplit
  rw [ho]
  exact h

/-- No sub-tiles here, the other operand's in the inner loop: K rounds are not repeated for them. -/
theorem sent_ne_whole (h : x.tile = x.rows) (ho : x.outer = true) (hother : x.otherTile < x.otherRows)
    (hw : 8 ≤ t.bitWidth) : x.sent t threeD ≠ x.expected t := by
  intro hs
  have hc := count_eq hs
  have hi : x.InnerSplit := by unfold InnerSplit; rw [ho]; exact hother
  have hin : x.innerRounds = x.otherRounds := by unfold innerRounds; rw [ho]; rfl
  rw [repeats, if_pos hi, len_whole h, t.effectiveK_bytes hw, hin, h] at hc
  have hle := Nat.mul_le_mul (toNat_i32_le x.otherRounds) (toNat_i32_le (x.rows * t.chunk))
  have hpos : 0 < x.otherRounds * (x.rows * t.chunk) :=
    Nat.mul_pos x.otherRounds_pos (Nat.mul_pos x.rows_pos t.chunk_pos)
  have hmul : 2 * (x.otherRounds * (x.rows * t.chunk)) ≤ x.otherRounds *
      (t.kRounds * (x.rows * t.chunk)) := by
    calc 2 * (x.otherRounds * (x.rows * t.chunk)) ≤ t.kRounds * (x.otherRounds * (x.rows * t.chunk)) :=
          Nat.mul_le_mul_right _ t.kRounds_gt
      _ = x.otherRounds * (t.kRounds * (x.rows * t.chunk)) := by ring
  omega

/-- Only the first byte of the first outer round is at offset 0 of the buffer. -/
theorem expected_ne_zero (hin : x.innerRounds = 1) {p : ℕ} (hp : 0 < p)
    (hlt : p < t.kRounds * (x.tile * t.chunk)) :
    (x.expected t)[p]? ≠ some 0 := by
  have hB : 0 < x.tile * t.chunk := Nat.mul_pos x.tile_pos t.chunk_pos
  have hk : p / (x.tile * t.chunk) < t.kRounds := (Nat.div_lt_iff_lt_mul hB).2 hlt
  have hrem : p % (x.tile * t.chunk) < x.tile * t.chunk := Nat.mod_lt _ hB
  have hr : p % (x.tile * t.chunk) / t.chunk < x.tile := (Nat.div_lt_iff_lt_mul t.chunk_pos).2 hrem
  have hb : p % (x.tile * t.chunk) % t.chunk < t.chunk := Nat.mod_lt _ t.chunk_pos
  have hget := x.expected_get t x.outerRounds_pos (i := 0) (by omega) hk hr hb
  rw [Nat.div_add_mod', Nat.div_add_mod', Nat.zero_mul, Nat.zero_mul, Nat.zero_add, Nat.zero_add] at hget
  rw [hget]
  intro h0
  have hz : ((x.subTile 0 0 * x.tile + p % (x.tile * t.chunk) / t.chunk) * t.kRounds +
    p / (x.tile * t.chunk)) *
      t.chunk + p % (x.tile * t.chunk) % t.chunk = 0 := by exact_mod_cast Option.some.inj h0
  -- every digit of the position is 0
  obtain ⟨hz', hd⟩ := Nat.add_eq_zero_iff.1 hz
  have hsum := (Nat.mul_eq_zero.1 hz').resolve_right (ne_of_gt t.chunk_pos)
  obtain ⟨hsum', hq⟩ := Nat.add_eq_zero_iff.1 hsum
  have hrow := (Nat.mul_eq_zero.1 hsum').resolve_right (ne_of_gt t.kRounds_pos)
  have hrow' := (Nat.add_eq_zero_iff.1 hrow).2
  have h1 := Nat.div_add_mod p (x.tile * t.chunk)
  have h2 := Nat.div_add_mod (p % (x.tile * t.chunk)) t.chunk
  rw [hrow', hd, mul_zero] at h2
  rw [hq, mul_zero] at h1
  omega

/-- Sub-tiles in the outer loop only, those of this operand: the whole K range is sent again for
every K round. -/
theorem sent_ne_outer (h : x.tile < x.rows) (ho : x.outer = true) (hother : x.otherTile = x.otherRows) :
    x.sent t threeD ≠ x.expected t := by
  intro hs
  have hi : ¬x.InnerSplit := by unfold InnerSplit; rw [ho, hother]; simp
  have hin : x.innerRounds = 1 := by
    unfold innerRounds
    rw [ho]
    exact otherRounds_whole hother
  have hc := count_eq hs
  have hrep : x.repeats t = i32 t.kRounds := if_neg hi
  rw [hrep, hin, one_mul] at hc
  have hB : 0 < x.tile * t.chunk := Nat.mul_pos x.tile_pos t.chunk_pos
  have htot : 0 < t.kRounds * (x.tile * t.chunk) := Nat.mul_pos t.kRounds_pos hB
  have hpos : 0 < (i32 t.kRounds).toNat * (i32 (x.len t)).toNat := by omega
  have hR := Nat.pos_of_mul_pos_right hpos
  have hL := Nat.pos_of_mul_pos_left hpos
  rcases lt_or_ge 1 (i32 t.kRounds).toNat with hR2 | hR1
  · -- the second repeat starts at the first byte again
    have hsec := x.sent_get t threeD x.outerRounds_pos (j := 1) (by rw [hrep]; exact hR2) hL
    have hlt : (i32 (x.len t)).toNat < t.kRounds * (x.tile * t.chunk) := by
      rw [← hc]
      exact (Nat.lt_mul_iff_one_lt_left hL).2 hR2
    have hiter : (x.bd t threeD 0).iter 1 = 0 := by
      have hp : x.iterPair t = (0, 0) := by unfold iterPair; rw [if_pos h, if_pos ho]
      simp [Bd.iter, bd, hp]
    rw [Nat.zero_mul, Nat.zero_add, one_mul, Nat.add_zero, Bd.addr_zero, bd_zero_offset, hiter, hs] at hsec
    exact expected_ne_zero hin hL hlt hsec
  · -- the repeat count itself is truncated, and one repeat is too short
    have hone : (i32 t.kRounds).toNat = 1 := le_antisymm hR1 hR
    obtain ⟨a, ha⟩ := toNat_i32_turns hR
    have hL31 := toNat_i32_lt (x.len t)
    rw [hone] at ha
    rw [hone, one_mul] at hc
    have hgt := t.kRounds_gt
    have hle : t.kRounds * 1 ≤ t.kRounds * (x.tile * t.chunk) := Nat.mul_le_mul_left _ hB
    omega

/-! ## No sub-tiles -/

theorem walk_chunks (s w : ℤ) (rest : List Dim) (r : ℕ) :
    walk (⟨1, 4⟩ :: ⟨4, t.kWords⟩ :: ⟨s, w⟩ :: rest) (r * t.chunk) =
      (r % w.toNat : ℕ) * s + walk rest (r / w.toNat) := by
  have hrow := walk_row t.chunk (⟨s, w⟩ :: rest) r t.chunk_pos
  rw [add_zero, Nat.cast_zero, zero_add] at hrow
  rw [walk_words]
  exact hrow

theorem dims_eq (x : Operand) (threeD : Bool) (hk : t.kWords < 2 ^ 31) :
    ∃ rest, x.dims t threeD =
      ⟨4, t.kWords⟩ :: ⟨i32 (t.kRounds * t.chunk : ℕ), i32 (x.dimRows threeD)⟩ :: rest ∧
      rest = if threeD then [⟨i32 t.chunk, i32 t.kRounds⟩] else [] := by
  have hF : t.kWords * t.kRounds * 4 = t.kRounds * t.chunk := by unfold Tiling.chunk; ring
  have hC : t.kWords * 4 = t.chunk := mul_comm _ _
  refine ⟨_, ?_, rfl⟩
  unfold dims dimRows
  cases threeD <;> simp [hF, hC, i32_of_lt hk]

theorem kWords_lt (hr : x.rows * t.chunk < 2 ^ 31) : t.kWords < 2 ^ 31 := by
  have h1 : t.chunk ≤ x.rows * t.chunk := Nat.le_mul_of_pos_left _ x.rows_pos
  unfold Tiling.chunk at h1 hr
  omega

theorem rows_lt (hr : x.rows * t.chunk < 2 ^ 31) : x.rows < 2 ^ 31 :=
  lt_of_le_of_lt (Nat.le_mul_of_pos_right _ t.chunk_pos) hr

@[simp] theorem subTile_zero : x.subTile 0 0 = 0 := by
  unfold subTile
  split <;> rfl

section Whole

variable (h : x.tile = x.rows) (hother : x.otherTile = x.otherRows)
include h hother

theorem outerRounds_one : x.outerRounds = 1 := by
  unfold outerRounds
  split
  · exact rounds_whole h
  · exact otherRounds_whole hother

theorem innerRounds_one : x.innerRounds = 1 := by
  unfold innerRounds
  split
  · exact otherRounds_whole hother
  · exact rounds_whole h

theorem repeats_whole : x.repeats t = i32 t.kRounds := by
  refine if_neg ?_
  unfold InnerSplit
  split <;> omega

theorem sent_whole :
    x.sent t threeD = (range (i32 t.kRounds).toNat).flatMap fun k => (x.bd t threeD 0).fire k := by
  unfold sent
  rw [outerRounds_one h hother, repeats_whole h hother, range_one, flatMap_singleton]
  rfl

theorem expected_whole : x.expected t = (range t.kRounds).flatMap fun k => t.block x.rows 0 k := by
  unfold expected
  rw [outerRounds_one h hother, innerRounds_one h hother, range_one, flatMap_singleton, flatMap_singleton,
    subTile_zero, h, Nat.zero_mul]

/-- The lengths agree only where an element is at least a byte and nothing is truncated. -/
theorem count_whole (hs : x.sent t threeD = x.expected t) :
    8 ≤ t.bitWidth ∧ t.kRounds < 2 ^ 31 ∧ x.rows * t.chunk < 2 ^ 31 := by
  have hc := count_eq hs
  rw [repeats_whole h hother, innerRounds_one h hother, len_whole h, one_mul, h] at hc
  rcases t.elemBytes_cases with ⟨hw, -⟩ | ⟨-, h1, h4⟩
  · rw [t.effectiveK_bytes hw] at hc
    obtain ⟨-, hk, hr⟩ := i32_mul_scaled t.kRounds_pos (Nat.mul_pos x.rows_pos t.chunk_pos)
      (show 4 ∣ 32 by decide) (by rw [hc]; ring)
    exact ⟨hw, hk, hr⟩
  · -- narrower elements are counted as bytes, which are too many
    rw [h1, mul_one] at hc
    have hscale : (i32 t.kRounds).toNat * (i32 (x.rows * t.effectiveK : ℕ)).toNat * t.elemsPerWord =
        4 * (t.kRounds * (x.rows * t.effectiveK)) := by
      rw [hc, t.effectiveK_eq, Tiling.chunk]
      ring
    have hd := (i32_mul_scaled t.kRounds_pos (Nat.mul_pos x.rows_pos t.effectiveK_pos) t.elemsPerWord_dvd
      hscale).1
    omega

omit hother in
theorem dimRows_whole : x.dimRows threeD = x.rows := by
  unfold dimRows
  split
  · exact h
  · rfl

/-- The second row is one full row of the buffer further on, so that distance is not truncated. -/
theorem pitch_whole (hs : x.sent t threeD = x.expected t) : x.rows = 1 ∨ t.kRounds * t.chunk < 2 ^ 31 := by
  obtain ⟨hw, hk, hr⟩ := count_whole h hother hs
  rcases lt_or_ge 1 x.rows with hrows | hrows
  · right
    have hlen : i32 (x.len t) = (x.rows * t.chunk : ℕ) := by
      rw [len_whole h, t.effectiveK_bytes hw, i32_of_lt hr]
    have hp : t.chunk < (i32 (x.len t)).toNat := by
      rw [hlen, Int.toNat_natCast]
      exact (Nat.lt_mul_iff_one_lt_left t.chunk_pos).2 hrows
    have hrep : 0 < (x.repeats t).toNat := by
      rw [repeats_whole h hother, toNat_i32_of_lt hk]
      exact t.kRounds_pos
    have hsent := x.sent_get t threeD x.outerRounds_pos hrep hp
    have hexp := x.expected_get t x.outerRounds_pos x.innerRounds_pos t.kRounds_pos (r := 1)
      (by omega) t.chunk_pos
    obtain ⟨rest, hdims, -⟩ := dims_eq x threeD (kWords_lt hr)
    have hwalk := walk_chunks (t := t) (i32 (t.kRounds * t.chunk : ℕ)) (i32 (x.dimRows threeD)) rest 1
    rw [dimRows_whole h, toNat_i32_of_lt (rows_lt hr), one_mul, Nat.mod_eq_of_lt hrows,
      Nat.div_eq_of_lt hrows, walk_zero] at hwalk
    have haddr : (x.bd t threeD 0).addr 0 t.chunk = i32 (t.kRounds * t.chunk : ℕ) := by
      rw [Bd.addr, bd_zero_offset, Bd.iter_zero, byteDims_bd, hdims, dimRows_whole h, hwalk]
      ring
    simp only [Nat.zero_mul, Nat.zero_add, one_mul, Nat.add_zero, subTile_zero] at hsent hexp
    rw [hs, hexp, haddr] at hsent
    exact i32_eq_iff.1 (Option.some.inj hsent).symm
  · exact Or.inl (by have := x.rows_pos; omega)

omit hother in
theorem fire_whole (hw : 8 ≤ t.bitWidth) (hk : t.kRounds < 2 ^ 31) (hr : x.rows * t.chunk < 2 ^ 31)
    (hpitch : x.rows = 1 ∨ t.kRounds * t.chunk < 2 ^ 31) {k : ℕ} (hlt : k < t.kRounds) :
    (x.bd t threeD 0).fire k = t.block x.rows 0 k := by
  have hchunk : t.chunk < 2 ^ 31 := lt_of_le_of_lt (Nat.le_mul_of_pos_left _ x.rows_pos) hr
  obtain ⟨rest, hdims, hrest⟩ := dims_eq x threeD (kWords_lt hr)
  rw [dimRows_whole h, i32_of_lt (rows_lt hr)] at hdims
  set ds : List Dim := [⟨1, 4⟩, ⟨4, t.kWords⟩, ⟨i32 (t.kRounds * t.chunk : ℕ), x.rows⟩] with hds
  have hsize : size ds = (x.bd t threeD 0).len.toNat := by
    rw [bd_len, len_whole h, t.effectiveK_bytes hw, toNat_i32_of_lt hr, hds]
    simp only [size, Int.toNat_natCast, one_mul, show (4 : ℤ).toNat = 4 from rfl, Tiling.chunk]
    ring
  have hwalk : ∀ i < size ds, walk (x.bd t threeD 0).byteDims i = walk ds i := by
    intro i hi
    rw [byteDims_bd, hdims, hrest]
    cases threeD
    · rfl
    · exact walk_append_singleton hi _
  have hoff : offsets ds = offsets [⟨1, t.chunk⟩, ⟨(t.kRounds * t.chunk : ℕ), x.rows⟩] := by
    rw [hds, t.offsets_words]
    rcases hpitch with h1 | hF
    · -- a single row: its distance to the next plays no part
      rw [h1]
      simp [offsets]
    · rw [i32_of_lt hF]
  have hpair : x.iterPair t = (i32 (t.effectiveK * t.elemBytes : ℕ), i32 t.kRounds) :=
    if_neg (by omega)
  have hiter : (x.bd t threeD 0).iter k = (k * t.chunk : ℕ) := by
    rw [Bd.iter_of_lt _ (w := t.kRounds) (by rw [bd, hpair, i32_of_lt hk]) hlt, bd, hpair,
      t.effectiveK_bytes hw,
      i32_of_lt hchunk]
    push_cast
    ring
  rw [Bd.fire_eq _ hwalk hsize, hoff, t.block_offsets, bd_zero_offset, hiter, Nat.zero_mul, Nat.zero_add]
  refine map_congr_left fun b _ => by rw [Int.zero_add]

/-- **No sub-tiles in either input.** The stream is right if elements are at least a byte and the
length, the K rounds and the row pitch (if there is a second row) fit 32 bits. -/
theorem sent_eq_iff_whole :
    x.sent t threeD = x.expected t ↔ 8 ≤ t.bitWidth ∧ t.kRounds < 2 ^ 31 ∧ x.rows * t.chunk < 2 ^ 31 ∧
      (x.rows = 1 ∨ t.kRounds * t.chunk < 2 ^ 31) := by
  constructor
  · intro hs
    obtain ⟨hw, hk, hr⟩ := count_whole h hother hs
    exact ⟨hw, hk, hr, pitch_whole h hother hs⟩
  · rintro ⟨hw, hk, hr, hpitch⟩
    rw [sent_whole h hother, expected_whole h hother, toNat_i32_of_lt hk]
    exact flatMap_congr fun k hk' => fire_whole h hw hk hr hpitch (mem_range.1 hk')

end Whole

/-! ## Sub-tiles in both inputs -/

section Split

variable (h : x.tile < x.rows) (hother : x.otherTile < x.otherRows)
include h hother

theorem innerSplit : x.InnerSplit := by
  unfold InnerSplit
  split
  · exact hother
  · exact h

/-- The K rounds are walked only by the third dimension: with two, the second K round is sought one
sub-tile of rows further on. -/
theorem threeD_of_sent (hs : x.sent t threeD = x.expected t) : threeD = true := by
  obtain ⟨hw, hin, hS⟩ := count_split h (innerSplit h hother) hs
  obtain ⟨-, hE, -⟩ := t.of_bytes hw
  rcases Bool.eq_false_or_eq_true threeD with h3 | h3
  · exact h3
  · exfalso
    subst h3
    have hlen : (i32 (x.len t)).toNat = x.tile * t.chunk * t.kRounds := by
      rw [len_split h, toNat_i32_of_lt hS, hE]
    have hB : 0 < x.tile * t.chunk := Nat.mul_pos x.tile_pos t.chunk_pos
    have hp : x.tile * t.chunk < (i32 (x.len t)).toNat := by
      rw [hlen]
      exact (Nat.lt_mul_iff_one_lt_right hB).2 t.kRounds_gt
    have hrep : 0 < (x.repeats t).toNat := by
      rw [repeats, if_pos (innerSplit h hother), toNat_i32_of_lt hin]
      exact x.innerRounds_pos
    have hsent := x.sent_get t false x.outerRounds_pos hrep hp
    have hexp := x.expected_get t x.outerRounds_pos x.innerRounds_pos t.kRounds_gt x.tile_pos t.chunk_pos
    have hF : t.kRounds * t.chunk < 2 ^ 31 := by
      refine lt_of_le_of_lt ?_ hS
      rw [hE, mul_assoc, mul_comm t.chunk]
      exact Nat.le_mul_of_pos_left _ x.tile_pos
    have hkW : t.kWords < 2 ^ 31 := by
      have : t.chunk ≤ t.kRounds * t.chunk := Nat.le_mul_of_pos_left _ t.kRounds_pos
      unfold Tiling.chunk at this hF
      omega
    obtain ⟨rest, hdims, hrest⟩ := dims_eq x false hkW
    obtain ⟨w, hwrap⟩ : ∃ w, w = i32 (x.dimRows false) := ⟨_, rfl⟩
    have haddr : (x.bd t false 0).addr 0 (x.tile * t.chunk) =
        (x.tile % w.toNat * (t.kRounds * t.chunk) : ℕ) := by
      rw [Bd.addr, bd_zero_offset, Bd.iter_zero, byteDims_bd, hdims, ← hwrap, walk_chunks, hrest,
        i32_of_lt hF]
      simp [walk]
    simp only [Nat.zero_mul, Nat.zero_add, one_mul, Nat.add_zero, subTile_zero] at hsent hexp
    rw [hs, hexp, haddr] at hsent
    have heq : t.chunk = x.tile % w.toNat * (t.kRounds * t.chunk) := by
      exact_mod_cast Option.some.inj hsent
    -- a multiple of the row pitch is not one K round
    have hdvd : t.kRounds * t.chunk ∣ t.chunk := ⟨_, by rw [mul_comm]; exact heq⟩
    have hle := Nat.le_of_dvd t.chunk_pos hdvd
    have hgt := (Nat.lt_mul_iff_one_lt_left t.chunk_pos).2 t.kRounds_gt
    omega

/-- The base of the last host round is not truncated. -/
theorem base_of_sent (ho : x.outer = true) (hs : x.sent t threeD = x.expected t) :
    (x.rounds - 1) * (x.tile * t.fullK) < 2 ^ 31 := by
  obtain ⟨hw, hin, hS⟩ := count_split h (innerSplit h hother) hs
  obtain ⟨-, -, hK⟩ := t.of_bytes hw
  have hrounds : x.outerRounds = x.rounds := by unfold outerRounds; rw [ho]; rfl
  have hlast : x.rounds - 1 < x.outerRounds := by
    rw [hrounds]
    have := x.rounds_pos
    omega
  have hpos : 0 < (x.repeats t).toNat * (i32 (x.len t)).toNat := by
    rw [count_eq hs]
    exact Nat.mul_pos x.innerRounds_pos (Nat.mul_pos t.kRounds_pos (Nat.mul_pos x.tile_pos t.chunk_pos))
  have hsent := x.sent_get t threeD hlast (Nat.pos_of_mul_pos_right hpos) (Nat.pos_of_mul_pos_left hpos)
  have hexp := x.expected_get t hlast x.innerRounds_pos t.kRounds_pos x.tile_pos t.chunk_pos
  have hsub : x.subTile (x.rounds - 1) 0 = x.rounds - 1 := by unfold subTile; rw [ho]; rfl
  rw [Nat.zero_mul, Nat.add_zero, count_eq hs, Bd.addr_zero, Bd.iter_zero, Int.add_zero, hs] at hsent
  rw [Nat.zero_mul, Nat.zero_mul, Nat.zero_mul, Nat.add_zero, hsent, hsub] at hexp
  have heq : i32 (i32 (x.rounds - 1 : ℕ) * i32 (x.stride t)) = ((x.rounds - 1) * (x.tile * t.fullK) : ℕ) := by
    refine (Option.some.inj hexp).trans ?_
    rw [hK]
    push_cast
    ring
  have hlt := i32_lt (i32 (x.rounds - 1 : ℕ) * i32 (x.stride t))
  rw [heq] at hlt
  exact_mod_cast hlt

omit hother in
/-- The base of round `(o, i)`: host loop and iteration together stand at its sub-tile. -/
theorem base_split (threeD : Bool) (hw : t.bitWidth = 8) (hin : x.innerRounds < 2 ^ 31)
    (hS : x.tile * t.fullK < 2 ^ 31)
    (hlast : x.outer = true → (x.rounds - 1) * (x.tile * t.fullK) < 2 ^ 31) {o i : ℕ}
    (hlo : o < x.outerRounds) (hli : i < x.innerRounds) :
    (x.bd t threeD o).offset + (x.bd t threeD o).iter i = (x.subTile o i * (x.tile * t.fullK) : ℕ) := by
  obtain ⟨he, -, -⟩ := t.of_bytes hw
  have hK : 0 < x.tile * t.fullK := Nat.mul_pos x.tile_pos (lt_trans t.effectiveK_pos t.effectiveK_lt)
  rcases Bool.eq_false_or_eq_true x.outer with ho | ho
  · -- outer loop: the host moves the base, the iteration stands still
    have hlt : o ≤ x.rounds - 1 := by
      unfold outerRounds at hlo
      rw [ho, if_pos rfl] at hlo
      omega
    have hbase : o * (x.tile * t.fullK) < 2 ^ 31 := lt_of_le_of_lt (Nat.mul_le_mul_right _ hlt) (hlast ho)
    have ho31 : o < 2 ^ 31 := lt_of_le_of_lt (Nat.le_mul_of_pos_right _ hK) hbase
    have hpair : x.iterPair t = (0, 0) := by unfold iterPair; rw [if_pos h, if_pos ho]
    have hstride : x.stride t = x.tile * t.fullK := by unfold stride; rw [if_pos ho, he, mul_one]
    have hoff : (x.bd t threeD o).offset = (o * (x.tile * t.fullK) : ℕ) := by
      rw [bd, hstride, i32_of_lt ho31, i32_of_lt hS, ← Nat.cast_mul, i32_of_lt hbase]
    have hiter : (x.bd t threeD o).iter i = 0 := by simp [Bd.iter, bd, hpair]
    have hsub : x.subTile o i = o := by unfold subTile; rw [ho]; rfl
    rw [hoff, hiter, hsub, Int.add_zero]
  · -- inner loop: the iteration moves it
    have hrounds : x.innerRounds = x.rounds := by unfold innerRounds; rw [ho]; rfl
    have hpair : x.iterPair t = (i32 (x.tile * t.fullK : ℕ), i32 x.rounds) := by
      unfold iterPair
      rw [if_pos h, if_neg (by simp [ho]), he, mul_one]
    have hoff : (x.bd t threeD o).offset = 0 := by simp [bd, stride, ho]
    have hiter : (x.bd t threeD o).iter i = i * (x.tile * t.fullK : ℕ) := by
      rw [hrounds] at hin hli
      rw [Bd.iter_of_lt _ (w := x.rounds) (by rw [bd, hpair, i32_of_lt hin]) hli, bd, hpair, i32_of_lt hS]
    have hsub : x.subTile o i = i := by unfold subTile; rw [ho]; rfl
    rw [hoff, hiter, hsub]
    push_cast
    ring

omit hother in
theorem fire_split (hw : t.bitWidth = 8) (hin : x.innerRounds < 2 ^ 31) (hS : x.tile * t.fullK < 2 ^ 31)
    (hlast : x.outer = true → (x.rounds - 1) * (x.tile * t.fullK) < 2 ^ 31) {o i : ℕ}
    (hlo : o < x.outerRounds) (hli : i < x.innerRounds) :
    (x.bd t true o).fire i = (range t.kRounds).flatMap fun k =>
    t.block x.tile (x.subTile o i * x.tile) k := by
  have hbase := base_split h true hw hin hS hlast hlo hli
  obtain ⟨-, hE, hK⟩ := t.of_bytes hw
  have hpitch : t.kRounds * t.chunk = t.fullK := by rw [hK, mul_comm]
  have hK31 : t.kRounds * t.chunk < 2 ^ 31 := by
    rw [hpitch]
    exact lt_of_le_of_lt (Nat.le_mul_of_pos_left _ x.tile_pos) hS
  have hk31 : t.kRounds < 2 ^ 31 := lt_of_le_of_lt (Nat.le_mul_of_pos_right _ t.chunk_pos) hK31
  have hc31 : t.chunk < 2 ^ 31 := lt_of_le_of_lt (Nat.le_mul_of_pos_left _ t.kRounds_pos) hK31
  have hW31 : t.kWords < 2 ^ 31 := by unfold Tiling.chunk at hc31; omega
  have hT31 : x.tile < 2 ^ 31 := by
    refine lt_of_le_of_lt (Nat.le_mul_of_pos_right _ ?_) hS
    rw [← hpitch]
    exact Nat.mul_pos t.kRounds_pos t.chunk_pos
  obtain ⟨rest, hdims, hrest⟩ := dims_eq x true hW31
  have hrows : x.dimRows true = x.tile := rfl
  rw [hrest, if_pos rfl, hrows, i32_of_lt hT31, i32_of_lt hK31, i32_of_lt hc31, i32_of_lt hk31] at hdims
  have hbytes : (x.bd t true o).byteDims = [⟨1, 4⟩, ⟨4, t.kWords⟩, ⟨(t.kRounds * t.chunk : ℕ), x.tile⟩] ++
      [⟨t.chunk, t.kRounds⟩] := by rw [byteDims_bd, hdims]; rfl
  have hsize : size (x.bd t true o).byteDims = (x.bd t true o).len.toNat := by
    have hl : x.tile * t.effectiveK * t.kRounds < 2 ^ 31 := by rwa [mul_assoc, ← t.fullK_eq]
    rw [bd_len, len_split h, toNat_i32_of_lt hl, hbytes, hE]
    simp only [size, cons_append, nil_append, Int.toNat_natCast, one_mul, show (4 : ℤ).toNat = 4 from rfl,
      Tiling.chunk]
    ring
  rw [Bd.fire_eq _ (fun _ _ => rfl) hsize, hbytes, offsets_append_singleton, map_flatMap, Int.toNat_natCast]
  refine flatMap_congr fun k _ => ?_
  rw [t.offsets_words, t.block_offsets, map_map, hbase, ← hpitch]
  refine map_congr_left fun b _ => ?_
  simp only [Function.comp_apply]
  push_cast
  ring

/-- **Sub-tiles in both inputs.** The stream is right for byte elements, if the descriptor has its
third dimension and the length, the inner rounds and the last base fit 32 bits. -/
theorem sent_eq_iff_split :
    x.sent t threeD = x.expected t ↔ t.bitWidth = 8 ∧ threeD = true ∧ x.innerRounds < 2 ^ 31 ∧
      x.tile * t.fullK < 2 ^ 31 ∧ (x.outer = true → (x.rounds - 1) * (x.tile * t.fullK) < 2 ^ 31) := by
  constructor
  · intro hs
    obtain ⟨hw, hin, hS⟩ := count_split h (innerSplit h hother) hs
    rw [mul_assoc, ← t.fullK_eq] at hS
    exact ⟨hw, threeD_of_sent h hother hs, hin, hS, fun ho => base_of_sent h hother ho hs⟩
  · rintro ⟨hw, rfl, hin, hS, hlast⟩
    unfold sent expected Bd.start
    rw [repeats, if_pos (innerSplit h hother), toNat_i32_of_lt hin]
    refine flatMap_congr fun o ho => flatMap_congr fun i hi => ?_
    exact fire_split h hw hin hS hlast (mem_range.1 ho) (mem_range.1 hi)

end Split

end Operand

end AieHlc.Gemm
