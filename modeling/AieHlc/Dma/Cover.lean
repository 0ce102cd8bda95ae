import Mathlib.Data.Multiset.Bind
import Mathlib.Data.Multiset.Range
import Mathlib.Data.List.ProdSigma
import Mathlib.Data.Set.Function
import AieHlc.Dma.Walk

/-!
# Walks that cover a buffer

Which set of addresses a nest of loops visits does not depend on the order of the
loops. Once sorted by stride, loops that continue one another merge, and a nest
that merges into one contiguous run visits every address of it exactly once.

* `offsets_perm`: loops in another order visit the same addresses.
* `bijOn_of_perm`: a loop over indices whose values are a list without repeats is
  a bijection onto that list.
* `Grid`: descriptors for each round and tile that differ in their base only.
  `Grid.bijOn`: rounds, tiles and iterations are three more loops around the
  dimensions, and whatever the whole nest merges into is covered once.
-/

namespace AieHlc.Dma

open List

variable {α ι : Type} {ds ds' : List Dim} {n : ℕ}

theorem flatMap_map_swap {β γ : Type} (l : List α) (m : List β) (f : α → β → γ) :
    (l.flatMap fun a => m.map fun b => f a b) ~ m.flatMap fun b => l.map fun a => f a b := by
  have h : (l : Multiset α).bind (fun a => (m : Multiset β).map fun b => f a b)
      = (m : Multiset β).bind fun b => (l : Multiset α).map fun a => f a b := Multiset.bind_map_comm _ _
  simpa [Multiset.coe_bind] using h

theorem offsets_perm (h : ds ~ ds') : offsets ds ~ offsets ds' := by
  induction h with
  | nil => rfl
  | cons d _ ih => exact ih.flatMap_right _
  | swap a b ds =>
    simp only [offsets, flatMap_assoc]
    refine Perm.flatMap_left _ fun c _ => ?_
    simp only [flatMap_map]
    refine (flatMap_map_swap _ _ _).trans (Perm.of_eq ?_)
    refine flatMap_congr fun i _ => map_congr_left fun j _ => ?_
    ring
  | trans _ _ ih₁ ih₂ => exact ih₁.trans ih₂

theorem offsets_contiguous (n : ℕ) : offsets [⟨1, n⟩] = (range n).map fun i : ℕ => (i : ℤ) := by
  simp [offsets]

theorem mem_contiguous {a : ℤ} : a ∈ offsets [⟨1, n⟩] ↔ 0 ≤ a ∧ a < n := by
  rw [offsets_contiguous, mem_map]
  constructor
  · rintro ⟨i, hi, rfl⟩
    exact ⟨by omega, by exact_mod_cast mem_range.1 hi⟩
  · rintro ⟨h0, hn⟩
    exact ⟨a.toNat, mem_range.2 (by omega), by omega⟩

theorem nodup_contiguous (n : ℕ) : (offsets [⟨1, n⟩]).Nodup := by
  rw [offsets_contiguous]
  exact nodup_range.map Nat.cast_injective

theorem offsets_run {s : ℤ} (h : s = n) (b : ℕ) (ds : List Dim) :
    offsets (⟨1, n⟩ :: ⟨s, b⟩ :: ds) = offsets (⟨1, (b * n : ℕ)⟩ :: ds) := by
  rw [← offsets_merge 1 n b ds, h, Int.mul_one]

/-- The same where the dimension may have one index only, and then any step. -/
theorem offsets_run_of {s : ℤ} {b : ℕ} (h : b = 1 ∨ s = n) (ds : List Dim) :
    offsets (⟨1, n⟩ :: ⟨s, b⟩ :: ds) = offsets (⟨1, (b * n : ℕ)⟩ :: ds) := by
  rcases h with rfl | h
  · have hone : offsets (⟨s, (1 : ℕ)⟩ :: ds) = offsets ds := offsets_one s ds
    rw [offsets, hone, one_mul]
    rfl
  · exact offsets_run h b ds

theorem offsets_cons_congr (h : offsets ds = offsets ds') (d : Dim) :
    offsets (d :: ds) = offsets (d :: ds') := by
  rw [offsets, offsets, h]

/-- Two dimensions that visit the same offsets: a single index has no use for its step. -/
structure Dim.Same (d d' : Dim) : Prop where
  wrap : d.wrap = d'.wrap
  stride : d.wrap = 1 ∨ d.stride = d'.stride

theorem Dim.Same.refl (d : Dim) : d.Same d := ⟨rfl, Or.inr rfl⟩

theorem offsets_same (h : Forall₂ Dim.Same ds ds') : offsets ds = offsets ds' := by
  induction h with
  | nil => rfl
  | @cons d d' ds ds' hd _ ih =>
    rw [offsets, offsets, ih, ← hd.wrap]
    refine flatMap_congr fun b _ => map_congr_left fun i hi => ?_
    rcases hd.stride with h1 | hs
    · obtain rfl : i = 0 := by
        rw [h1] at hi
        exact Nat.lt_one_iff.1 (mem_range.1 hi)
      simp
    · rw [hs]

theorem size_same (h : Forall₂ Dim.Same ds ds') : size ds = size ds' := by
  induction h with
  | nil => rfl
  | cons hd _ ih => rw [size, size, ih, hd.wrap]

theorem offsets_sublist (h : Forall₂ (fun d d' : Dim => d.stride = d'.stride ∧ d.wrap ≤ d'.wrap) ds ds') :
    offsets ds <+ offsets ds' := by
  induction h with
  | nil => exact Sublist.refl _
  | @cons d d' ds ds' hd _ ih =>
    rw [offsets, offsets, hd.1]
    refine (ih.flatMap _).trans (Sublist.flatMap_right _ fun b _ => ?_)
    exact (range_sublist.2 (Int.toNat_le_toNat hd.2)).map _

theorem bijOn_of_perm {J : List ι} {f : ι → α} {l : List α} (h : J.map f ~ l) (hl : l.Nodup) :
    Set.BijOn f {j | j ∈ J} {a | a ∈ l} := by
  refine ⟨?_, ?_, ?_⟩
  · intro j hj
    exact h.mem_iff.1 (mem_map_of_mem hj)
  · intro j hj k hk hjk
    exact inj_on_of_nodup_map (h.nodup_iff.2 hl) hj hk hjk
  · intro a ha
    obtain ⟨j, hj, rfl⟩ := mem_map.1 (h.mem_iff.2 ha)
    exact ⟨j, hj, rfl⟩

theorem perm_of_bijOn {J : List ι} {f : ι → α} {l : List α} (hJ : J.Nodup) (hl : l.Nodup)
    (h : Set.BijOn f {j | j ∈ J} {a | a ∈ l}) : J.map f ~ l := by
  refine (perm_ext_iff_of_nodup (hJ.map_on fun j hj k hk => h.injOn hj hk) hl).2 fun a => ?_
  rw [mem_map]
  constructor
  · rintro ⟨j, hj, rfl⟩
    exact h.mapsTo hj
  · intro ha
    obtain ⟨j, hj, hja⟩ := h.surjOn ha
    exact ⟨j, hj, hja⟩

theorem card_of_bijOn {f : ℕ × ℕ × ℕ → ℤ} {T k N : ℕ}
    (h : Set.BijOn f {x | x.1 < T ∧ x.2.1 < n ∧ x.2.2 < k} {a | 0 ≤ a ∧ a < N}) : T * (n * k) = N := by
  have hJ : (range T ×ˢ (range n ×ˢ range k)).Nodup := nodup_range.product (nodup_range.product nodup_range)
  have hset : {x | x ∈ range T ×ˢ (range n ×ˢ range k)} =
      {x : ℕ × ℕ × ℕ | x.1 < T ∧ x.2.1 < n ∧ x.2.2 < k} := by
    ext ⟨t, i, p⟩
    simp
  have hmem : {a | a ∈ offsets [⟨1, N⟩]} = {a : ℤ | 0 ≤ a ∧ a < N} := by
    ext a
    exact mem_contiguous
  have hperm := perm_of_bijOn hJ (nodup_contiguous N) (by rwa [hset, hmem])
  have hlen := hperm.length_eq
  rw [length_map, length_product, length_product, length_range, length_range, length_range,
    length_offsets] at hlen
  simpa [size] using hlen

/-- A step that starts a loop around indices that already cover `[0, n)` is at least `n`, if no address is
visited twice. -/
theorem step_eq_of_injOn {f : ι → ℤ} {S I : Set ι} (hinj : Set.InjOn f S) (hsub : I ⊆ S)
    (hcover : ∀ a : ℕ, a < n → ∃ x ∈ I, f x = a) {y : ι} (hy : y ∈ S) (hout : y ∉ I) (h0 : 0 ≤ f y)
    (hle : f y ≤ n) :
    f y = n := by
  by_contra hne
  obtain ⟨x, hx, hxy⟩ := hcover (f y).toNat (by omega)
  have heq : f x = f y := by omega
  exact hout (hinj (hsub hx) hy heq ▸ hx)

/-! ## Descriptors on a grid of rounds and tiles -/

/-- Index of one byte: tile, round, iteration, position in the descriptor. -/
abbrev Index := ℕ × ℕ × ℕ × ℕ

/-- Where the descriptor of a round and tile puts a byte. -/
def place (bd : ℕ → ℕ → Bd) (x : Index) : ℤ := (bd x.2.1 x.1).addr x.2.2.1 x.2.2.2

/-- A single round of a single tile. -/
theorem single_fire {rounds : ℕ} {bd : ℕ → ℕ → Bd} {b : Bd}
    (h : (range rounds).map (fun r => (range 1).map (bd r)) = [[b]]) : rounds = 1 ∧ bd 0 0 = b := by
  have hone : (range rounds).map (fun r => (range 1).map (bd r)) = (range 1).map fun _ : ℕ => [b] := h
  obtain ⟨hr, hall⟩ := map_range_inj hone
  exact ⟨hr, by simpa using hall 0 (by omega)⟩

/-- What a single fire covers is as long as the fire. -/
theorem length_of_single_fire {bd : ℕ → ℕ → Bd} {l : List ℤ} (hl : l.Nodup)
    (h : Set.BijOn (place bd) {x | x.1 < 1 ∧ x.2.1 < 1 ∧ x.2.2.1 < 1 ∧ x.2.2.2 < (bd x.2.1 x.1).len.toNat}
      {a | a ∈ l}) : (bd 0 0).len.toNat = l.length := by
  have hJ : ((range (bd 0 0).len.toNat).map fun p : ℕ => ((0, 0, 0, p) : Index)).Nodup :=
    nodup_range.map fun p q h => by simpa using h
  have hset : {x | x ∈ (range (bd 0 0).len.toNat).map fun p : ℕ => ((0, 0, 0, p) : Index)} =
      {x | x.1 < 1 ∧ x.2.1 < 1 ∧ x.2.2.1 < 1 ∧ x.2.2.2 < (bd x.2.1 x.1).len.toNat} := by
    ext ⟨t, r, i, p⟩
    simp only [Set.mem_ofPred_eq, mem_map, mem_range, Prod.mk.injEq, Nat.lt_one_iff]
    constructor
    · rintro ⟨q, hq, rfl, rfl, rfl, rfl⟩
      exact ⟨rfl, rfl, rfl, hq⟩
    · rintro ⟨rfl, rfl, rfl, hlt⟩
      exact ⟨p, hlt, rfl, rfl, rfl, rfl⟩
  have hlen := (perm_of_bijOn hJ hl (by rwa [hset])).length_eq
  rwa [length_map, length_map, length_range] at hlen

/-- The indices of `tiles`, `rounds`, `iters` and `len`. -/
def box (tiles rounds iters len : ℕ) : Set Index :=
  {x | x.1 < tiles ∧ x.2.1 < rounds ∧ x.2.2.1 < iters ∧ x.2.2.2 < len}

/-- Descriptors `bd r t` that walk the same dimensions from bases a fixed step apart. -/
structure Grid (tiles rounds iters : ℕ) (perTile perRound perIter : ℤ) (ds : List Dim) (bd : ℕ → ℕ → Bd) :
    Prop where
  offset : ∀ r < rounds, ∀ t < tiles, (bd r t).offset = t * perTile + r * perRound
  dims : ∀ r < rounds, ∀ t < tiles, (bd r t).dims = ds
  iterStep : ∀ r < rounds, ∀ t < tiles, (bd r t).iterStep = perIter
  iterWrap : ∀ r < rounds, ∀ t < tiles, (bd r t).iterWrap = iters
  dims_ne : ds ≠ []

namespace Grid

variable {tiles rounds iters : ℕ} {perTile perRound perIter : ℤ} {ds : List Dim} {bd : ℕ → ℕ → Bd}

theorem addr_eq (g : Grid tiles rounds iters perTile perRound perIter ds bd) {r t i : ℕ} (hr : r < rounds)
    (ht : t < tiles) (hi : i < iters) (p : ℕ) :
    (bd r t).addr i p = t * perTile + r * perRound + i * perIter + walk (⟨1, 4⟩ :: ds) p := by
  have hb : (bd r t).byteDims = ⟨1, 4⟩ :: ds := by
    rw [Bd.byteDims, g.dims r hr t ht, if_neg g.dims_ne]
  rw [Bd.addr, hb, Bd.iter_of_lt _ (g.iterWrap r hr t ht) hi, g.iterStep r hr t ht, g.offset r hr t ht]

theorem size_bytes (ds : List Dim) : size (⟨1, 4⟩ :: ds) = 4 * size ds := mul_comm _ _

section

variable (g : Grid tiles rounds iters perTile perRound perIter ds bd)

include g

theorem fire_eq {r t i : ℕ} (hr : r < rounds) (ht : t < tiles) (hi : i < iters)
    (hlen : (bd r t).len = (4 * size ds : ℕ)) :
    (bd r t).fire i = (offsets (⟨1, 4⟩ :: ds)).map fun b => t * perTile + r * perRound + i * perIter + b := by
  rw [Bd.fire, hlen, Int.toNat_natCast, ← map_walk_range, map_map, size_bytes]
  exact map_congr_left fun p _ => g.addr_eq hr ht hi p

/-- Tiles, rounds and iterations are three more loops. -/
theorem map_place :
    (range tiles ×ˢ (range rounds ×ˢ (range iters ×ˢ range (4 * size ds)))).map (place bd) =
      offsets (((⟨1, 4⟩ :: ds ++ [⟨perIter, iters⟩]) ++ [⟨perRound, rounds⟩]) ++ [⟨perTile, tiles⟩]) := by
  rw [offsets_append_singleton, offsets_append_singleton, offsets_append_singleton]
  simp only [SProd.sprod, product, map_flatMap, map_map, Int.toNat_natCast]
  refine flatMap_congr fun t ht => flatMap_congr fun r hr => flatMap_congr fun i hi => ?_
  rw [← map_walk_range, map_map, size_bytes]
  refine map_congr_left fun p _ => ?_
  have h := g.addr_eq (mem_range.1 hr) (mem_range.1 ht) (mem_range.1 hi) p
  simp only [Function.comp_apply, place, h]
  ring

/-- **Cover**: if the nest of all loops visits the addresses `l`, none twice, each of them is placed once. -/
theorem bijOn {l : List ℤ}
    (h : offsets (⟨1, 4⟩ :: ds ++ [⟨perIter, iters⟩, ⟨perRound, rounds⟩, ⟨perTile, tiles⟩]) ~ l)
    (hl : l.Nodup) :
    Set.BijOn (place bd) (box tiles rounds iters (4 * size ds)) {a | a ∈ l} := by
  have hperm := g.map_place
  simp only [append_assoc, cons_append, nil_append] at hperm h
  have hbij := bijOn_of_perm (hperm ▸ h) hl
  have hbox : {x | x ∈ range tiles ×ˢ (range rounds ×ˢ (range iters ×ˢ range (4 * size ds)))} =
      box tiles rounds iters (4 * size ds) := by
    ext ⟨t, r, i, p⟩
    simp [box]
  rwa [hbox] at hbij

end

theorem bijOn_one (g : Grid tiles 1 iters perTile perRound perIter ds bd) {l : List ℤ}
    (h : offsets (⟨1, 4⟩ :: ds ++ [⟨perIter, iters⟩, ⟨perTile, tiles⟩]) ~ l) (hl : l.Nodup) :
    Set.BijOn (fun x : ℕ × ℕ × ℕ => (bd 0 x.1).addr x.2.1 x.2.2)
      {x | x.1 < tiles ∧ x.2.1 < iters ∧ x.2.2 < 4 * size ds} {a | a ∈ l} := by
  have hround : ⟨1, 4⟩ :: ds ++ [⟨perIter, iters⟩, ⟨perRound, (1 : ℕ)⟩, ⟨perTile, tiles⟩] ~
      ⟨perRound, (1 : ℕ)⟩ :: (⟨1, 4⟩ :: ds ++ [⟨perIter, iters⟩, ⟨perTile, tiles⟩]) := by
    have hm : (⟨1, 4⟩ :: ds ++ [⟨perIter, iters⟩]) ++ ⟨perRound, (1 : ℕ)⟩ :: [⟨perTile, tiles⟩]
      ~ _ := perm_middle
    simpa using hm
  have hone : offsets (⟨perRound, (1 : ℕ)⟩ :: (⟨1, 4⟩ :: ds ++ [⟨perIter, iters⟩, ⟨perTile, tiles⟩])) = _ :=
    offsets_one perRound _
  have hbij := g.bijOn ((offsets_perm hround).trans (hone ▸ h)) hl
  refine hbij.comp (f := fun x : ℕ × ℕ × ℕ => ((x.1, 0, x.2.1, x.2.2) : Index)) ⟨?_, ?_, ?_⟩
  · rintro ⟨t, i, p⟩ ⟨ht, hi, hp⟩
    exact ⟨ht, Nat.one_pos, hi, hp⟩
  · rintro ⟨t, i, p⟩ - ⟨t', i', p'⟩ - heq
    simpa using heq
  · rintro ⟨t, r, i, p⟩ ⟨ht, hr, hi, hp⟩
    obtain rfl : r = 0 := Nat.lt_one_iff.1 hr
    exact ⟨(t, i, p), ⟨ht, hi, hp⟩, rfl⟩

end Grid

end AieHlc.Dma
