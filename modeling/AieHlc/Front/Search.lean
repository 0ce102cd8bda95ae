import Mathlib.Data.Nat.Log
import Mathlib.Data.Nat.Notation
import Mathlib.Tactic.Common
import Mathlib.Tactic.Ring

/-!
# Choosing the tile of a core

The front end derives the tile of a GEMM from the sizes of the problem, the hints of the ports and
the memory of a core.

* `TileDim`, `ShimDma`, `ParsedTensorInfo`: what the derivation reads of a port.
* `collectHints`: the hints of all ports, later ones over earlier ones.
* `autoTile`: the search for a tile within the memory, first along K and then along M and N.
* `autoTile_fits_iff`: where the search ends within the memory, and `autoTile_eq`: with which tile.
-/

namespace AieHlc.Front

open List

variable {budget : ℕ}

/-- One dimension's split: the length of a tile, the number of tiles, and the rows of a round inside
a tile. -/
structure TileDim where
  size : ℕ := 0
  groups : ℕ := 0
  l2Size : ℕ := 0
deriving DecidableEq, Repr

inductive DmaMode where
  | flat
  | spatialHalo
deriving DecidableEq, Repr

/-- The shim's addressing of a port, as far as sizes depend on it. -/
structure ShimDma where
  mode : DmaMode := .flat
  haloSlice : ℕ := 0
  rawWc : ℕ := 0
  ow : ℕ := 0
  wRounds : ℕ := 0
  l2Slice : ℕ := 0
  l2Rounds : ℕ := 0
deriving DecidableEq, Repr

inductive Pattern where
  | broadcast
  | scatter
  | multicast
  | gather
deriving DecidableEq, Repr

inductive Distribution where
  | row
  | col
  | grid
deriving DecidableEq, Repr

structure ParsedTensorInfo where
  shape : List ℕ
  elementBitWidth : ℕ
  isInput : Bool
  pattern : Pattern := .broadcast
  distribution : Distribution := .row
  maxBufferBytes : ℕ := 4096
  tdM : TileDim := {}
  tdN : TileDim := {}
  tdK : TileDim := {}
  tdD1 : TileDim := {}
  tdD2 : TileDim := {}
  perPort2D : Bool := false
  policyResolved : Bool := false
  shimDma : ShimDma := {}
deriving DecidableEq, Repr

/-! ## Hints -/

structure Hints where
  tileM : ℕ := 0
  tileN : ℕ := 0
  tileK : ℕ := 0
  groupsM : ℕ := 0
  groupsN : ℕ := 0
  groupsK : ℕ := 0
  elementBytes : ℕ := 1
deriving DecidableEq, Repr

namespace Hints

variable (h : Hints)

def setM (td : TileDim) : Hints := { h with tileM := td.size, groupsM := td.groups }

def setN (td : TileDim) : Hints := { h with tileN := td.size, groupsN := td.groups }

def setK (td : TileDim) : Hints := { h with tileK := td.size, groupsK := td.groups }

variable (pt : ParsedTensorInfo)

/-- A port with a policy: its own two dimensions by its role, or the shared ones that are set. -/
def readPolicy : Hints :=
  if pt.perPort2D then
    match pt.isInput, pt.distribution with
    | true, .row => (h.setM pt.tdD1).setK pt.tdD2
    | true, .col => (h.setN pt.tdD1).setK pt.tdD2
    | true, .grid => h
    | false, _ => (h.setM pt.tdD1).setN pt.tdD2
  else
    let h := if 0 < pt.tdM.size then h.setM pt.tdM else h
    let h := if 0 < pt.tdN.size then h.setN pt.tdN else h
    if 0 < pt.tdK.size then h.setK pt.tdK else h

def read : Hints :=
  let h := if pt.policyResolved then h.readPolicy pt else h
  { h with elementBytes := max h.elementBytes (pt.elementBitWidth / 8) }

theorem elementBytes_read : h.elementBytes ≤ (h.read pt).elementBytes := by
  have hpolicy : (if pt.policyResolved then h.readPolicy pt else h).elementBytes = h.elementBytes := by
    unfold readPolicy setM setN setK
    dsimp only
    split_ifs <;> first | rfl | (split <;> rfl)
  calc h.elementBytes = (if pt.policyResolved then h.readPolicy pt else h).elementBytes := hpolicy.symm
    _ ≤ (h.read pt).elementBytes := le_max_left _ _

end Hints

def collectHints (ports : List ParsedTensorInfo) : Hints := ports.foldl Hints.read {}

theorem elementBytes_pos (ports : List ParsedTensorInfo) : 0 < (collectHints ports).elementBytes := by
  have hrun : ∀ (l : List ParsedTensorInfo) (h : Hints),
      h.elementBytes ≤ (l.foldl Hints.read h).elementBytes := by
    intro l
    induction l with
    | nil => exact fun _ => le_refl _
    | cons pt l ih => exact fun h => (h.elementBytes_read pt).trans (ih _)
  exact hrun ports {}

/-! ## The tile and its memory -/

structure Tile where
  m : ℕ
  n : ℕ
  k : ℕ
deriving DecidableEq, Repr

/-- Elements of the blocks of A, B and C a core holds. -/
def Tile.elems (t : Tile) : ℕ := t.m * t.k + t.k * t.n + t.m * t.n

def computeWorkingSet (elementBytes : ℕ) (t : Tile) : ℕ := t.elems * elementBytes

theorem Tile.elems_eq (t : Tile) : t.elems = t.m * t.n + t.k * (t.m + t.n) := by
  unfold Tile.elems
  rw [mul_add, mul_comm t.k t.m]
  omega

theorem computeWorkingSet_le_iff {elementBytes : ℕ} (he : 0 < elementBytes) (usable : ℕ) (t : Tile) :
    computeWorkingSet elementBytes t ≤ usable ↔ t.elems ≤ usable / elementBytes :=
  (Nat.le_div_iff_mul_le he).symm

/-- The largest chunk of K beside the block of C. -/
def maxK (budget m n : ℕ) : ℕ := (budget - m * n) / (m + n)

/-- Doubling while the double stays within the bound. -/
def double (bound : ℕ) : ℕ → ℕ → ℕ
  | 0, k => k
  | fuel + 1, k => if k * 2 ≤ bound then double bound fuel (k * 2) else k

/-- `k = 1; while (k * 2 <= bound) k *= 2`. -/
def powerOfTwo (bound : ℕ) : ℕ := double bound bound 1

theorem double_eq {bound : ℕ} (hb : bound ≠ 0) : ∀ fuel j, j ≤ Nat.log 2 bound → Nat.log 2 bound ≤ j + fuel →
    double bound fuel (2 ^ j) = 2 ^ Nat.log 2 bound := by
  intro fuel
  induction fuel with
  | zero =>
    intro j hle hfuel
    rw [double, le_antisymm hle hfuel]
  | succ fuel ih =>
    intro j hle hfuel
    rw [double, ← pow_succ]
    split
    · rename_i hdouble
      exact ih (j + 1) ((Nat.le_log_iff_pow_le (by decide) hb).2 hdouble) (by omega)
    · rename_i hstop
      have hj : ¬j + 1 ≤ Nat.log 2 bound := fun h => hstop ((Nat.le_log_iff_pow_le (by decide) hb).1 h)
      rw [show j = Nat.log 2 bound by omega]

theorem powerOfTwo_eq (bound : ℕ) : powerOfTwo bound = 2 ^ Nat.log 2 bound := by
  rcases Nat.eq_zero_or_pos bound with rfl | hpos
  · rfl
  · exact double_eq hpos.ne' bound 0 (Nat.zero_le _) (by have := Nat.log_le_self 2 bound; omega)

theorem powerOfTwo_pos (bound : ℕ) : 0 < powerOfTwo bound := by
  rw [powerOfTwo_eq]
  exact Nat.two_pow_pos _

theorem powerOfTwo_le {bound : ℕ} (hb : 0 < bound) : powerOfTwo bound ≤ bound := by
  rw [powerOfTwo_eq]
  exact Nat.pow_log_le_self 2 hb.ne'

/-! ## The search -/

/-- Phase A: less of K at a time, C as it is. -/
def shrinkK (budget : ℕ) (t : Tile) : Tile :=
  if t.m * t.n < budget then
    let maxK := maxK budget t.m t.n
    if maxK < t.k ∧ 0 < maxK then { t with k := powerOfTwo maxK } else t
  else t

def candidates : List ℕ := [256, 128, 64, 32, 16, 8]

/-- Phase B: a smaller block of C. The chunk of K is left as it was where the block alone is over
the budget. -/
def fitCandidates (usable elementBytes budget rows cols dimK : ℕ) : List ℕ → Tile → Tile
  | [], t => t
  | candidate :: rest, t =>
    let m := min candidate rows
    let n := min candidate cols
    if m * n < budget then
      let t : Tile := ⟨m, n, powerOfTwo (min (maxK budget m n) dimK)⟩
      if computeWorkingSet elementBytes t ≤ usable then t
      else fitCandidates usable elementBytes budget rows cols dimK rest t
    else fitCandidates usable elementBytes budget rows cols dimK rest ⟨m, n, t.k⟩

def autoTile (usable elementBytes rows cols dimK : ℕ) : Tile :=
  let budget := usable / elementBytes
  let t := shrinkK budget ⟨rows, cols, dimK⟩
  if budget ≤ rows * cols then fitCandidates usable elementBytes budget rows cols dimK candidates t else t

/-! ## What the search finds -/

section Found

variable {usable elementBytes rows cols dimK : ℕ}

/-- The block of a side with a single column of A and row of B beside it. -/
abbrev FitsSide (budget rows cols side : ℕ) : Prop :=
  min side rows * min side cols + (min side rows + min side cols) ≤ budget

/-- The tile of a side: the largest power of two of K beside the block. -/
def sideTile (budget rows cols dimK side : ℕ) : Tile :=
  ⟨min side rows, min side cols, 2 ^ Nat.log 2 (min (maxK budget (min side rows) (min side cols)) dimK)⟩

/-- A chunk of K chosen within the budget stays in it unless even a single one does not. -/
theorem elems_powerOfTwo_le_iff {m n : ℕ} (hK : 0 < dimK) (hc : m * n < budget) :
    (Tile.mk m n (powerOfTwo (min (maxK budget m n) dimK))).elems ≤ budget ↔ m * n + (m + n) ≤ budget := by
  rw [Tile.elems_eq]
  constructor
  · intro h
    have hone := Nat.le_mul_of_pos_left (m + n) (powerOfTwo_pos (min (maxK budget m n) dimK))
    dsimp only at h
    omega
  · intro h
    rcases Nat.eq_zero_or_pos (m + n) with h0 | hpos
    · dsimp only
      rw [h0, mul_zero]
      omega
    · have hmax : 0 < maxK budget m n := Nat.div_pos (by omega) hpos
      have hle : powerOfTwo (min (maxK budget m n) dimK) ≤ maxK budget m n :=
        (powerOfTwo_le (lt_min hmax hK)).trans (min_le_left _ _)
      have hmul : powerOfTwo (min (maxK budget m n) dimK) * (m + n) ≤ budget - m * n :=
        (Nat.mul_le_mul_right _ hle).trans (Nat.div_mul_le_self _ _)
      dsimp only
      omega

/-- The search stops at the first side that fits. -/
theorem fitCandidates_some (he : 0 < elementBytes) (hK : 0 < dimK) (hrows : 0 < rows) {side : ℕ} :
    ∀ (l : List ℕ) (t : Tile), (∀ s ∈ l, 0 < s) →
    (l.find? fun s => FitsSide (usable / elementBytes) rows cols s) = some side →
    fitCandidates usable elementBytes (usable / elementBytes) rows cols dimK l t =
      sideTile (usable / elementBytes) rows cols dimK side := by
  intro l
  induction l with
  | nil =>
    intro t _ h
    cases h
  | cons candidate rest ih =>
    intro t hpos h
    have hrest : ∀ s ∈ rest, 0 < s := fun s hs => hpos s (mem_cons_of_mem _ hs)
    rw [fitCandidates]
    dsimp only
    rw [find?_cons] at h
    by_cases hfit : FitsSide (usable / elementBytes) rows cols candidate
    · rw [decide_eq_true hfit] at h
      obtain rfl := Option.some.inj h
      split
      · rename_i hc
        rw [if_pos ((computeWorkingSet_le_iff he usable _).2 ((elems_powerOfTwo_le_iff hK hc).2 hfit)),
          powerOfTwo_eq]
        rfl
      · -- a block with a row of each operand beside it is below the budget
        rename_i hc
        have hm : 0 < min candidate rows := lt_min (hpos candidate (mem_cons_self ..)) hrows
        exact absurd hfit (by unfold FitsSide; omega)
    · rw [decide_eq_false hfit] at h
      split
      · rename_i hc
        rw [if_neg fun hle => hfit ((elems_powerOfTwo_le_iff hK hc).1
          ((computeWorkingSet_le_iff he usable _).1 hle))]
        exact ih _ hrest h
      · exact ih _ hrest h

/-- Where no side fits, the tile that is left is too large. -/
theorem fitCandidates_none (he : 0 < elementBytes) (hK : 0 < dimK) : ∀ (l : List ℕ) (t : Tile),
    (∀ s ∈ l, 0 < s) → (∀ s ∈ l, ¬FitsSide (usable / elementBytes) rows cols s) →
    0 < t.k → ¬t.elems ≤ usable / elementBytes →
    ¬(fitCandidates usable elementBytes (usable / elementBytes) rows cols dimK l t).elems ≤
      usable / elementBytes := by
  intro l
  induction l with
  | nil => exact fun _ _ _ _ h => h
  | cons candidate rest ih =>
    intro t hpos hnone hk _
    have hfit := hnone candidate (mem_cons_self ..)
    have ih' : ∀ t : Tile, 0 < t.k → ¬t.elems ≤ usable / elementBytes → _ := fun t =>
      ih t (fun s hs => hpos s (mem_cons_of_mem _ hs)) (fun s hs => hnone s (mem_cons_of_mem _ hs))
    rw [fitCandidates]
    dsimp only
    split
    · rename_i hc
      have hover := fun hle => hfit ((elems_powerOfTwo_le_iff hK hc).1 hle)
      rw [if_neg fun hle => hover ((computeWorkingSet_le_iff he usable _).1 hle)]
      exact ih' _ (powerOfTwo_pos _) hover
    · rename_i hc
      refine ih' _ hk fun hle => ?_
      have hmul := Nat.le_mul_of_pos_left (min candidate rows + min candidate cols) hk
      rw [Tile.elems_eq] at hle
      dsimp only at hle
      omega

theorem candidates_pos : ∀ s ∈ candidates, 0 < s := by decide

theorem FitsSide.mono {s s' : ℕ} (h : FitsSide budget rows cols s) (hle : s' ≤ s) :
    FitsSide budget rows cols s' := by
  have hm : min s' rows ≤ min s rows := by omega
  have hn : min s' cols ≤ min s cols := by omega
  exact (Nat.add_le_add (Nat.mul_le_mul hm hn) (Nat.add_le_add hm hn)).trans h

theorem exists_fitsSide_iff (budget : ℕ) :
    (∃ s ∈ candidates, FitsSide budget rows cols s) ↔ FitsSide budget rows cols 8 := by
  constructor
  · rintro ⟨s, hs, hfit⟩
    have hle : ∀ s ∈ candidates, 8 ≤ s := by decide
    exact hfit.mono (hle s hs)
  · exact fun h => ⟨8, by decide, h⟩

/-- Where a tile within the budget is to be had: the search leaves M and N alone if the block of C
is below it. -/
def Roomy (budget rows cols : ℕ) : Prop :=
  if rows * cols < budget then rows * cols + (rows + cols) ≤ budget else FitsSide budget rows cols 8

def roomyTile (budget rows cols dimK : ℕ) : Tile :=
  if rows * cols < budget then ⟨rows, cols, 2 ^ Nat.log 2 (maxK budget rows cols)⟩
  else sideTile budget rows cols dimK
    ((candidates.find? fun s => FitsSide budget rows cols s).getD 8)

/-- Phase A over the budget: there is less of K to take, or nothing changes. -/
theorem shrinkK_over (hrows : 0 < rows) (hc : rows * cols < budget)
    (hover : ¬(Tile.mk rows cols dimK).elems ≤ budget) :
    shrinkK budget ⟨rows, cols, dimK⟩ =
        (if rows * cols + (rows + cols) ≤ budget then ⟨rows, cols, powerOfTwo (maxK budget rows cols)⟩
        else ⟨rows, cols, dimK⟩) ∧
      maxK budget rows cols < dimK := by
  have hlt : maxK budget rows cols < dimK := by
    rw [Tile.elems_eq] at hover
    dsimp only at hover
    exact (Nat.div_lt_iff_lt_mul (by omega)).2 (by omega)
  have hpos : 0 < maxK budget rows cols ↔ rows * cols + (rows + cols) ≤ budget := by
    rw [maxK, Nat.div_pos_iff]
    omega
  refine ⟨?_, hlt⟩
  rw [shrinkK, if_pos hc]
  simp only [hlt, hpos, true_and]

theorem find_candidate (hfit : FitsSide budget rows cols 8) :
    ∃ side ∈ candidates, (candidates.find? fun s => FitsSide budget rows cols s) = some side ∧
      FitsSide budget rows cols side := by
  obtain ⟨s, hs, hfit'⟩ := (exists_fitsSide_iff budget).2 hfit
  have hsome : (candidates.find? fun s => FitsSide budget rows cols s).isSome :=
    find?_isSome.2 ⟨s, hs, decide_eq_true hfit'⟩
  obtain ⟨side, hside⟩ := Option.isSome_iff_exists.1 hsome
  have hfound := find?_some hside
  exact ⟨side, mem_of_find?_eq_some hside, hside, of_decide_eq_true hfound⟩

/-- Where there is room, the loops of the search have a closed form. -/
theorem autoTile_eq (he : 0 < elementBytes) (hK : 0 < dimK) (hrows : 0 < rows)
    (hover : usable < computeWorkingSet elementBytes ⟨rows, cols, dimK⟩)
    (hroomy : Roomy (usable / elementBytes) rows cols) :
    autoTile usable elementBytes rows cols dimK = roomyTile (usable / elementBytes) rows cols dimK := by
  have hover' : ¬(Tile.mk rows cols dimK).elems ≤ usable / elementBytes := fun h =>
    Nat.not_le_of_lt hover ((computeWorkingSet_le_iff he usable _).2 h)
  unfold Roomy at hroomy
  unfold autoTile roomyTile
  by_cases hc : rows * cols < usable / elementBytes
  · rw [if_pos hc] at hroomy ⊢
    rw [if_neg (Nat.not_le_of_lt hc), (shrinkK_over hrows hc hover').1, if_pos hroomy, powerOfTwo_eq]
  · rw [if_neg hc] at hroomy ⊢
    obtain ⟨side, -, hfind, -⟩ := find_candidate hroomy
    rw [if_pos (Nat.le_of_not_lt hc), fitCandidates_some he hK hrows _ _ candidates_pos hfind, hfind]
    rfl

theorem roomyTile_elems (hK : 0 < dimK) (hrows : 0 < rows) (hover : ¬(Tile.mk rows cols dimK).elems ≤ budget)
    (hroomy : Roomy budget rows cols) : (roomyTile budget rows cols dimK).elems ≤ budget := by
  unfold Roomy at hroomy
  unfold roomyTile
  split at hroomy
  · rename_i hc
    have hiff := elems_powerOfTwo_le_iff hK hc
    rw [min_eq_left (shrinkK_over hrows hc hover).2.le, powerOfTwo_eq] at hiff
    rw [if_pos hc]
    exact hiff.2 hroomy
  · rename_i hc
    obtain ⟨side, hside, hfind, hfit⟩ := find_candidate hroomy
    have hm : 0 < min side rows := lt_min (candidates_pos side hside) hrows
    rw [if_neg hc, hfind, Option.getD_some, sideTile, ← powerOfTwo_eq]
    exact (elems_powerOfTwo_le_iff hK (by unfold FitsSide at hfit; omega)).2 hfit

/-- **The search.** For a problem over the budget it ends within it exactly if there is room. -/
theorem autoTile_fits_iff (he : 0 < elementBytes) (hK : 0 < dimK) (hrows : 0 < rows)
    (hover : usable < computeWorkingSet elementBytes ⟨rows, cols, dimK⟩) :
    computeWorkingSet elementBytes (autoTile usable elementBytes rows cols dimK) ≤ usable ↔
      Roomy (usable / elementBytes) rows cols := by
  have hover' : ¬(Tile.mk rows cols dimK).elems ≤ usable / elementBytes := fun h =>
    Nat.not_le_of_lt hover ((computeWorkingSet_le_iff he usable _).2 h)
  rw [computeWorkingSet_le_iff he]
  constructor
  · intro hle
    by_contra hroomy
    unfold Roomy at hroomy
    unfold autoTile at hle
    by_cases hc : rows * cols < usable / elementBytes
    · -- nothing of K is left to take: phase A gives the problem back
      rw [if_pos hc] at hroomy
      rw [if_neg (Nat.not_le_of_lt hc), (shrinkK_over hrows hc hover').1, if_neg hroomy] at hle
      exact hover' hle
    · rw [if_neg hc, ← exists_fitsSide_iff] at hroomy
      rw [if_pos (Nat.le_of_not_lt hc), shrinkK, if_neg hc] at hle
      have hnone : ∀ s ∈ candidates, ¬FitsSide (usable / elementBytes) rows cols s :=
        fun s hs hfit => hroomy ⟨s, hs, hfit⟩
      exact fitCandidates_none he hK _ _ candidates_pos hnone hK hover' hle
  · intro hroomy
    rw [autoTile_eq he hK hrows hover hroomy]
    exact roomyTile_elems hK hrows hover' hroomy

end Found

end AieHlc.Front
