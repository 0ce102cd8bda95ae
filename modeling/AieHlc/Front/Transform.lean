import AieHlc.Dma.Cover

/-!
# The DMA transforms of the kernel prelude

`DmaTransform` packs a loop nest into at most three strides and an iteration. The factories are
compared with the loops their names promise, written out over the index tuples.

* `DmaTransform.visits`: the walk, `dims[0]` innermost and the iteration outermost.
* `Request`: a factory with its sizes; `Request.named`: the loops it stands for.
* `Request.visits_eq_iff`: which requests are enumerated as named. A dilated window loses its
  channels, and the window of one group of several reads on into the next group.
-/

namespace AieHlc.Front

open List Dma

/-- `DmaTransform`, as far as the factories set it: the first `num_dims` entries of `dims`, and the
iteration. -/
structure DmaTransform where
  dims : List Dim
  iterStep : ℤ := 0
  iterWrap : ℤ := 0
deriving DecidableEq, Repr

namespace DmaTransform

def im2col (H W C KH KW S P : ℤ) : DmaTransform :=
  let OW := (W + 2 * P - KW).tdiv S + 1
  let OH := (H + 2 * P - KH).tdiv S + 1
  { dims := [⟨1, KW * C⟩, ⟨W * C, KH⟩, ⟨S * C, OW⟩], iterStep := W * C * S, iterWrap := OH }

def dilatedIm2col (H W C KH KW S P D : ℤ) : DmaTransform :=
  let OW := (W + 2 * P - D * (KW - 1) - 1).tdiv S + 1
  let OH := (H + 2 * P - D * (KH - 1) - 1).tdiv S + 1
  { dims := [⟨D * C, KW⟩, ⟨W * C * D, KH⟩, ⟨S * C, OW⟩], iterStep := W * C * S, iterWrap := OH }

def depthwiseIm2col (H W C KH KW S P G : ℤ) : DmaTransform :=
  let CPG := C.tdiv G
  let OW := (W + 2 * P - KW).tdiv S + 1
  let OH := (H + 2 * P - KH).tdiv S + 1
  { dims := [⟨1, KW * CPG⟩, ⟨W * C, KH⟩, ⟨S * C, OW⟩], iterStep := W * C * S, iterWrap := OH }

def transpose (rows cols : ℤ) : DmaTransform := { dims := [⟨cols, rows⟩, ⟨1, cols⟩] }

def chwToHwc (C H W : ℤ) : DmaTransform :=
  { dims := [⟨H * W, C⟩, ⟨1, W⟩], iterStep := W, iterWrap := H }

def hwcToChw (H W C : ℤ) : DmaTransform :=
  { dims := [⟨C, W⟩, ⟨W * C, H⟩], iterStep := 1, iterWrap := C }

/-- The iteration is one more loop around the dimensions, if it has a wrap. -/
def loops (d : DmaTransform) : List Dim :=
  if d.iterWrap = 0 then d.dims else d.dims ++ [⟨d.iterStep, d.iterWrap⟩]

def visits (d : DmaTransform) : List ℤ := offsets d.loops

end DmaTransform

/-- The sizes of a convolution over an HWC input. -/
structure Conv where
  (H W C KH KW S : ℕ)
deriving DecidableEq, Repr

namespace Conv

/-- All sizes are positive, and the kernel with its taps `D` apart fits the input. -/
structure Fits (v : Conv) (D : ℕ) : Prop where
  sizes : 0 < v.C ∧ 0 < v.KH ∧ 0 < v.KW ∧ 0 < v.S ∧ 0 < D
  tall : D * (v.KH - 1) + 1 ≤ v.H
  wide : D * (v.KW - 1) + 1 ≤ v.W

/-- Positions of a kernel of `k` taps, `D` apart, along `n` elements. -/
def outputs (n k S D : ℕ) : ℕ := (n - (D * (k - 1) + 1)) / S + 1

variable (v : Conv)

/-- The elements under the kernel, `n` channels of each. -/
def reads (D n : ℕ) : List ℤ :=
  (range (outputs v.H v.KH v.S D)).flatMap fun oh => (range (outputs v.W v.KW v.S D)).flatMap fun ow =>
    (range v.KH).flatMap fun kh => (range v.KW).flatMap fun kw => (range n).map fun c =>
      (((oh * v.S + kh * D) * v.W + ow * v.S + kw * D) * v.C + c : ℕ)

/-- The loops of `reads` around the channels, as dimensions. -/
def outer (D : ℕ) : List Dim :=
  [⟨v.W * v.C * D, v.KH⟩, ⟨v.S * v.C, outputs v.W v.KW v.S D⟩, ⟨v.W * v.C * v.S, outputs v.H v.KH v.S D⟩]

theorem reads_eq (D n : ℕ) :
    v.reads D n = offsets (⟨1, n⟩ :: ⟨D * v.C, v.KW⟩ :: v.outer D) := by
  simp only [reads, outer, offsets, flatMap_assoc, flatMap_map, Int.toNat_natCast, flatMap_cons,
    flatMap_nil, append_nil]
  refine flatMap_congr fun oh _ => flatMap_congr fun ow _ => flatMap_congr fun kh _ =>
    flatMap_congr fun kw _ =>
    map_congr_left fun c _ => ?_
  push_cast
  ring

theorem outputs_pos (n k S D : ℕ) : 0 < outputs n k S D := Nat.succ_pos _

/-- The factories' count of positions. -/
theorem outputs_eq {n k S D : ℕ} (hk : 0 < k) (h : D * (k - 1) + 1 ≤ n) :
    ((n : ℤ) - D * (k - 1) - 1).tdiv S + 1 = outputs n k S D := by
  have hnat : (n : ℤ) - D * (k - 1) - 1 = (n - (D * (k - 1) + 1) : ℕ) := by
    push_cast [h, Nat.cast_sub hk]
    ring
  rw [hnat, ← Int.ofNat_tdiv, outputs, Nat.cast_succ]

theorem outputs_adjacent {n k S : ℕ} (hk : 0 < k) (h : 1 * (k - 1) + 1 ≤ n) :
    ((n : ℤ) - k).tdiv S + 1 = outputs n k S 1 := by
  rw [← outputs_eq hk h, Nat.cast_one, one_mul, sub_sub, sub_add_cancel]

/-- The transform of a window whose innermost loop is `a`. -/
def nest (D : ℕ) (a : Dim) : DmaTransform where
  dims := [a, ⟨v.W * v.C * D, v.KH⟩, ⟨v.S * v.C, outputs v.W v.KW v.S D⟩]
  iterStep := v.W * v.C * v.S
  iterWrap := outputs v.H v.KH v.S D

theorem visits_nest (D : ℕ) (a : Dim) : (v.nest D a).visits = offsets (a :: v.outer D) := by
  have hpos := outputs_pos v.H v.KH v.S D
  rw [DmaTransform.visits, DmaTransform.loops, if_neg (by simp [nest, hpos.ne'])]
  rfl

end Conv

/-- A factory and the sizes it is given, without padding. -/
inductive Request where
  | im2col (v : Conv)
  | dilatedIm2col (v : Conv) (D : ℕ)
  | depthwiseIm2col (v : Conv) (G : ℕ)
  | transpose (rows cols : ℕ)
  | chwToHwc (C H W : ℕ)
  | hwcToChw (H W C : ℕ)

namespace Request

def Fits : Request → Prop
  | im2col v => v.Fits 1
  | dilatedIm2col v D => v.Fits D
  | depthwiseIm2col v G => v.Fits 1 ∧ 0 < G ∧ G ∣ v.C
  | transpose rows cols => 0 < rows ∧ 0 < cols
  | chwToHwc C H W => 0 < C ∧ 0 < H ∧ 0 < W
  | hwcToChw H W C => 0 < H ∧ 0 < W ∧ 0 < C

def transform : Request → DmaTransform
  | im2col v => .im2col v.H v.W v.C v.KH v.KW v.S 0
  | dilatedIm2col v D => .dilatedIm2col v.H v.W v.C v.KH v.KW v.S 0 D
  | depthwiseIm2col v G => .depthwiseIm2col v.H v.W v.C v.KH v.KW v.S 0 G
  | transpose rows cols => .transpose rows cols
  | chwToHwc C H W => .chwToHwc C H W
  | hwcToChw H W C => .hwcToChw H W C

/-- The elements a request names, in the order of its loops. -/
def named : Request → List ℤ
  | im2col v => v.reads 1 v.C
  | dilatedIm2col v D => v.reads D v.C
  | depthwiseIm2col v G => v.reads 1 (v.C / G)
  | transpose rows cols => (range cols).flatMap fun c => (range rows).map fun r => (r * cols + c : ℕ)
  | chwToHwc C H W => (range H).flatMap fun h => (range W).flatMap fun w => (range C).map fun c =>
      (c * (H * W) + h * W + w : ℕ)
  | hwcToChw H W C => (range C).flatMap fun c => (range H).flatMap fun h => (range W).map fun w =>
      ((h * W + w) * C + c : ℕ)

/-- The requests whose dimensions hold the whole nest. -/
def Held : Request → Prop
  | dilatedIm2col v _ => v.C = 1
  | depthwiseIm2col v G => G = 1 ∨ v.KW = 1
  | _ => True

variable {v : Conv} {D G : ℕ}

/-! The three windows are nests: only the innermost loop tells them apart. -/

theorem transform_im2col (hv : v.Fits 1) : (im2col v).transform = v.nest 1 ⟨1, (v.KW * v.C : ℕ)⟩ := by
  obtain ⟨-, hKH, hKW, -⟩ := hv.sizes
  simp [transform, DmaTransform.im2col, Conv.nest, Conv.outputs_adjacent hKH hv.tall,
    Conv.outputs_adjacent hKW hv.wide]

theorem transform_dilated (hv : v.Fits D) : (dilatedIm2col v D).transform = v.nest D ⟨D * v.C, v.KW⟩ := by
  obtain ⟨-, hKH, hKW, -⟩ := hv.sizes
  simp [transform, DmaTransform.dilatedIm2col, Conv.nest, Conv.outputs_eq hKH hv.tall,
    Conv.outputs_eq hKW hv.wide]

theorem transform_depthwise (hv : v.Fits 1) :
    (depthwiseIm2col v G).transform = v.nest 1 ⟨1, (v.KW * (v.C / G) : ℕ)⟩ := by
  obtain ⟨-, hKH, hKW, -⟩ := hv.sizes
  simp [transform, DmaTransform.depthwiseIm2col, Conv.nest, Conv.outputs_adjacent hKH hv.tall,
    Conv.outputs_adjacent hKW hv.wide]

theorem visits_dilated_iff (hv : v.Fits D) :
    (dilatedIm2col v D).transform.visits = (dilatedIm2col v D).named ↔ v.C = 1 := by
  rw [transform_dilated hv, Conv.visits_nest, named, Conv.reads_eq]
  constructor
  · intro h
    -- one channel of each tap against all of them: the lengths differ by the factor `C`
    have hlen := congrArg length h
    rw [length_offsets, length_offsets, size.eq_2 ⟨1, v.C⟩, Int.toNat_natCast] at hlen
    have hpos : 0 < size (⟨D * v.C, v.KW⟩ :: v.outer D) := by
      obtain ⟨-, hKH, hKW, -⟩ := hv.sizes
      simp [size, Conv.outer, hKH, hKW, Conv.outputs_pos]
    exact Nat.eq_of_mul_eq_mul_left hpos (by rw [← hlen, mul_one])
  · intro hC
    rw [hC]
    exact (offsets_one 1 _).symm

theorem visits_depthwise_iff (hv : v.Fits 1) (hG : 0 < G) (hdvd : G ∣ v.C) :
    (depthwiseIm2col v G).transform.visits = (depthwiseIm2col v G).named ↔ G = 1 ∨ v.KW = 1 := by
  rw [transform_depthwise hv, Conv.visits_nest, named, Conv.reads_eq, Nat.cast_one, one_mul]
  obtain ⟨hC, hKH, hKW, -⟩ := hv.sizes
  have hgroup : 0 < v.C / G := Nat.div_pos (Nat.le_of_dvd hC hdvd) hG
  constructor
  · intro h
    by_contra hne
    have htap : 1 < v.KW := by omega
    rw [← map_walk_range, ← map_walk_range] at h
    -- the element after the channels of the first tap
    have hlt : v.C / G < v.KW * (v.C / G) := lt_mul_of_one_lt_left hgroup htap
    have hsize : v.C / G < size (⟨1, (v.KW * (v.C / G) : ℕ)⟩ :: v.outer 1) := by
      refine hlt.trans_le (Nat.le_mul_of_pos_left _ ?_)
      simp [size, Conv.outer, hKH, Conv.outputs_pos]
    have hwalk := (map_range_inj h).2 _ hsize
    rw [walk, walk, walk] at hwalk
    simp only [Int.toNat_natCast, Nat.mod_eq_of_lt hlt, Nat.div_eq_of_lt hlt, Nat.mod_self,
      Nat.div_self hgroup,
      Nat.mod_eq_of_lt htap, Nat.div_eq_of_lt htap, walk_zero] at hwalk
    have hall : v.C / G = v.C := by omega
    exact hne (Or.inl ((Nat.div_eq_self.1 hall).resolve_left hC.ne'))
  · intro h
    refine (offsets_run_of ?_ _).symm
    rcases h with rfl | h
    · exact Or.inr (by simp)
    · exact Or.inl h

/-- **The factories that enumerate what they name.** -/
theorem visits_eq_iff (r : Request) (h : r.Fits) : r.transform.visits = r.named ↔ r.Held := by
  cases r with
  | im2col v =>
    refine iff_true_intro ?_
    rw [transform_im2col h, Conv.visits_nest, named, Conv.reads_eq, offsets_run (by simp)]
  | dilatedIm2col v D => exact visits_dilated_iff h
  | depthwiseIm2col v G => exact visits_depthwise_iff h.1 h.2.1 h.2.2
  | transpose rows cols =>
    refine iff_true_intro ?_
    simp [transform, DmaTransform.transpose, DmaTransform.visits, DmaTransform.loops, offsets,
      named, flatMap_map]
  | chwToHwc C H W =>
    refine iff_true_intro ?_
    simp [transform, DmaTransform.chwToHwc, DmaTransform.visits, DmaTransform.loops, offsets,
      named, flatMap_map,
      flatMap_assoc, h.2.1.ne']
    refine flatMap_congr fun _ _ => flatMap_congr fun _ _ => map_congr_left fun _ _ => ?_
    ring
  | hwcToChw H W C =>
    refine iff_true_intro ?_
    simp [transform, DmaTransform.hwcToChw, DmaTransform.visits, DmaTransform.loops, offsets,
      named, flatMap_map,
      flatMap_assoc, h.2.2.ne']
    refine flatMap_congr fun _ _ => flatMap_congr fun _ _ => map_congr_left fun _ _ => ?_
    ring

/-- Two by two taps, two apart, over a 3 by 3 input of two channels. -/
def twoChannels : Conv := ⟨3, 3, 2, 2, 2, 1⟩

theorem twoChannels_fits : twoChannels.Fits 2 := ⟨by decide, by decide, by decide⟩

theorem visits_eq_iff_twoChannels :
    (dilatedIm2col twoChannels 2).Fits ∧
      ((dilatedIm2col twoChannels 2).transform.visits = (dilatedIm2col twoChannels 2).named ↔
        (dilatedIm2col twoChannels 2).Held) :=
  ⟨twoChannels_fits, visits_eq_iff _ twoChannels_fits⟩

/-- The transform visits the first channel of the four taps only. -/
theorem not_visits_named : ¬ ∀ r : Request, r.Fits → r.transform.visits = r.named := by
  intro h
  have hC := (visits_dilated_iff twoChannels_fits).1 (h (dilatedIm2col twoChannels 2) twoChannels_fits)
  exact absurd hC (by decide)

end Request

end AieHlc.Front
