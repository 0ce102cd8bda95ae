import Mathlib.Algebra.Order.Ring.Nat
import Mathlib.Data.Int.Notation
import Mathlib.Data.List.Basic
import Mathlib.Tactic.Ring

/-!
# Multi-dimensional DMA descriptors

A buffer descriptor walks its dimensions innermost first for `len` bytes. Each
repeat of one start advances an iteration counter modulo its wrap, and the
counter moves the base by a fixed step; configuring the descriptor resets it.

* `walk`: the offset after a number of steps; `offsets`: all of them in order, as
  nested loops. `map_walk_range`: the two agree over a full walk.
* `offsets_merge`: a dimension that continues the one inside it.
* `Bd.fire`, `Bd.start`: the byte addresses of one repeat and of one start.
* `getElem?_flatMap_range`: two nested loops as one, for reading a stream at a position.
-/

namespace AieHlc.Dma

open List

section Loops

variable {α : Type}

theorem map_range_mul (f : ℕ → α) (m n : ℕ) :
    (range (m * n)).map f = (range m).flatMap fun i => (range n).map fun j => f (i * n + j) := by
  induction m with
  | zero => simp
  | succ m ih =>
    rw [Nat.succ_mul, range_add, map_append, ih, range_succ, flatMap_append, map_map]
    simp [Function.comp_def]

theorem map_range_inj {f g : ℕ → α} {m n : ℕ} (h : (range m).map f = (range n).map g) :
    m = n ∧ ∀ i < m, f i = g i := by
  have hmn : m = n := by simpa using congrArg length h
  subst hmn
  exact ⟨rfl, fun i hi => map_inj_left.1 h i (mem_range.2 hi)⟩

theorem length_flatMap_range {f : ℕ → List α} {m n : ℕ} (h : ∀ i, (f i).length = n) :
    ((range m).flatMap f).length = m * n := by
  induction m with
  | zero => simp
  | succ m ih => rw [range_succ, flatMap_append, length_append, ih]; simp [h, Nat.succ_mul]

theorem index_lt {m n i j : ℕ} (hi : i < m) (hj : j < n) : i * n + j < m * n := by
  have h := Nat.mul_le_mul_right n (show i + 1 ≤ m from hi)
  rw [Nat.succ_mul] at h
  omega

theorem getElem?_flatMap_range {f : ℕ → List α} {m n i j : ℕ} (h : ∀ i, (f i).length = n) (hi : i < m)
    (hj : j < n) : ((range m).flatMap f)[i * n + j]? = (f i)[j]? := by
  induction m with
  | zero => omega
  | succ m ih =>
    have hlen : ((range m).flatMap f).length = m * n := length_flatMap_range h
    rw [range_succ, flatMap_append, flatMap_singleton]
    rcases lt_or_ge i m with hlt | hge
    · rw [getElem?_append_left (by rw [hlen]; exact index_lt hlt hj), ih hlt]
    · have heq : i = m := by omega
      subst heq
      rw [getElem?_append_right (by omega), hlen, Nat.add_sub_cancel_left]

end Loops

/-- One dimension of a descriptor: the step in bytes, and the number of indices. -/
structure Dim where
  stride : ℤ
  wrap : ℤ
deriving DecidableEq, Repr

/-- The offset after `i` steps, dimensions innermost first. -/
def walk : List Dim → ℕ → ℤ
  | [], _ => 0
  | d :: ds, i => (i % d.wrap.toNat : ℕ) * d.stride + walk ds (i / d.wrap.toNat)

variable (ds : List Dim)

theorem walk_zero : walk ds 0 = 0 := by
  induction ds with
  | nil => rfl
  | cons d ds ih => simp [walk, ih]

def size : List Dim → ℕ
  | [] => 1
  | d :: ds => size ds * d.wrap.toNat

/-- The offsets of a full walk, outermost loop first. -/
def offsets : List Dim → List ℤ
  | [] => [0]
  | d :: ds => (offsets ds).flatMap fun b => (range d.wrap.toNat).map fun i : ℕ => i * d.stride + b

theorem map_walk_range : (range (size ds)).map (walk ds) = offsets ds := by
  induction ds with
  | nil => rfl
  | cons d ds ih =>
    rw [size, map_range_mul, offsets, ← ih, flatMap_map]
    refine flatMap_congr fun q _ => map_congr_left fun r hr => ?_
    have hr' : r < d.wrap.toNat := mem_range.1 hr
    rw [walk, mul_comm q, Nat.mul_add_mod, Nat.mul_add_div (by omega), Nat.mod_eq_of_lt hr',
      Nat.div_eq_of_lt hr', add_zero]

theorem length_offsets : (offsets ds).length = size ds := by
  rw [← map_walk_range, length_map, length_range]

theorem walk_words (x : ℕ) (ds : List Dim) (p : ℕ) :
    walk (⟨1, 4⟩ :: ⟨4, x⟩ :: ds) p = walk (⟨1, (4 * x : ℕ)⟩ :: ds) p := by
  have hmod : p % (4 * x) = p % 4 + 4 * (p / 4 % x) := Nat.mod_mul
  simp only [walk, Int.toNat_natCast, hmod, ← Nat.div_div_eq_div_mul, show (4 : ℤ).toNat = 4 from rfl]
  push_cast
  ring

theorem walk_row (n : ℕ) (ds : List Dim) (r : ℕ) {b : ℕ} (hb : b < n) :
    walk (⟨1, n⟩ :: ds) (r * n + b) = b + walk ds r := by
  have hmod : (r * n + b) % n = b := by rw [mul_comm, Nat.mul_add_mod, Nat.mod_eq_of_lt hb]
  have hdiv : (r * n + b) / n = r := by
    rw [mul_comm, Nat.mul_add_div (by omega), Nat.div_eq_of_lt hb, add_zero]
  simp only [walk, Int.toNat_natCast, hmod, hdiv]
  ring

/-- Until the inner dimensions are through, the outermost one plays no part. -/
theorem walk_append_singleton {ds : List Dim} {i : ℕ} (h : i < size ds) (d : Dim) :
    walk (ds ++ [d]) i = walk ds i := by
  induction ds generalizing i with
  | nil =>
    have h0 : i = 0 := by rw [size] at h; omega
    rw [h0, walk_zero, walk_zero]
  | cons c ds ih =>
    rw [size] at h
    rw [cons_append, walk, walk, ih (Nat.div_lt_of_lt_mul (by rwa [mul_comm]))]

/-- The outermost dimension is the outermost loop. -/
theorem offsets_append_singleton (d : Dim) :
    offsets (ds ++ [d]) =
      (range d.wrap.toNat).flatMap fun i : ℕ => (offsets ds).map fun b => b + i * d.stride := by
  induction ds with
  | nil => simp [offsets, map_eq_flatMap]
  | cons c ds ih =>
    rw [cons_append, offsets, ih, offsets, flatMap_assoc]
    refine flatMap_congr fun i _ => ?_
    rw [flatMap_map, map_flatMap]
    refine flatMap_congr fun b _ => ?_
    rw [map_map]
    exact map_congr_left fun k _ => by simp only [Function.comp_apply]; ring

theorem offsets_one (s : ℤ) (ds : List Dim) : offsets (⟨s, 1⟩ :: ds) = offsets ds := by
  simp [offsets]

/-- A dimension whose step is the length of the one inside it continues it. -/
theorem offsets_merge (s : ℤ) (a b : ℕ) (ds : List Dim) :
    offsets (⟨s, a⟩ :: ⟨a * s, b⟩ :: ds) = offsets (⟨s, (b * a : ℕ)⟩ :: ds) := by
  simp only [offsets, Int.toNat_natCast]
  rw [flatMap_assoc]
  refine flatMap_congr fun c _ => ?_
  rw [flatMap_map, map_range_mul]
  refine flatMap_congr fun i _ => map_congr_left fun j _ => ?_
  push_cast
  ring

/-- A buffer descriptor. With no dimensions it is a contiguous run of `len` bytes. -/
structure Bd where
  offset : ℤ
  len : ℤ
  dims : List Dim
  iterStep : ℤ
  iterWrap : ℤ
deriving DecidableEq, Repr

namespace Bd

variable (bd : Bd)

/-- The dimensions of the walk byte by byte: the DMA moves 4-byte words. -/
def byteDims : List Dim := if bd.dims = [] then [⟨1, bd.len⟩] else ⟨1, 4⟩ :: bd.dims

/-- What the iteration counter adds to the base in repeat `j` of a start. -/
def iter (j : ℕ) : ℤ := if 0 < bd.iterWrap then (j % bd.iterWrap.toNat : ℕ) * bd.iterStep else 0

/-- Repeats after which the counter starts again. -/
def iterations : ℕ := if 0 < bd.iterWrap then bd.iterWrap.toNat else 1

/-- The address of byte `p` of repeat `j`. -/
def addr (j p : ℕ) : ℤ := bd.offset + bd.iter j + walk bd.byteDims p

/-- The addresses of repeat `j`, in order. -/
def fire (j : ℕ) : List ℤ := (range bd.len.toNat).map (bd.addr j)

/-- The addresses of one start with repeat count `n`: the counter runs from 0. -/
def start (n : ℤ) : List ℤ := (range n.toNat).flatMap bd.fire

@[simp] theorem length_fire (j : ℕ) : (bd.fire j).length = bd.len.toNat := by simp [fire]

theorem iterations_pos : 0 < bd.iterations := by
  unfold iterations
  split <;> omega

@[simp] theorem length_start (n : ℤ) : (bd.start n).length = n.toNat * bd.len.toNat :=
  length_flatMap_range fun j => by simp [fire]

/-- A repeat whose length is a full walk of dimensions it starts with. -/
theorem fire_eq {ds : List Dim} (hds : ∀ i < size ds, walk bd.byteDims i = walk ds i)
    (h : size ds = bd.len.toNat) (j : ℕ) :
    bd.fire j = (offsets ds).map fun b => bd.offset + bd.iter j + b := by
  rw [fire, ← h, ← map_walk_range, map_map]
  refine map_congr_left fun p hp => ?_
  rw [addr, hds p (mem_range.1 hp)]
  rfl

theorem iter_of_lt {j w : ℕ} (hw : bd.iterWrap = w) (hj : j < w) : bd.iter j = j * bd.iterStep := by
  rw [iter, hw, if_pos (by omega), Int.toNat_natCast, Nat.mod_eq_of_lt hj]

theorem iter_zero : bd.iter 0 = 0 := by simp [iter]

theorem addr_zero (j : ℕ) : bd.addr j 0 = bd.offset + bd.iter j := by rw [addr, walk_zero, Int.add_zero]

theorem fire_flat (n : ℤ) (j : ℕ) : (⟨0, n, [], 0, 0⟩ : Bd).fire j = (range n.toNat).map fun p :
    ℕ => (p : ℤ) := by
  refine map_congr_left fun p hp => ?_
  simp only [addr, iter, byteDims, if_true, walk, Nat.mod_eq_of_lt (mem_range.1 hp)]
  simp

end Bd

end AieHlc.Dma
