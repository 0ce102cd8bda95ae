import AieHlc.Route.Grid
import AieHlc.Search.Label
import Mathlib.Data.Finset.Prod

/-!
# Path search

Model of `connectAvailable` and `bfsSingle` (`routingpath.cpp`): a search over the grid
whose queue orders by tile class before distance. Distances are natural numbers; the
parents of an earlier search stay in place.

* `neighbours`: the tiles one round of the search moves to.
* `bfsSingle`: the search and the way back.
* `Legal`, `IsRoute`: the moves a stream may make, and a route, in terms of the grid.
* `bfsSingle_ends`: with a route, or with none to find.
* `bfsSingle_correct`: **the search ends, finds a route exactly if there is one, and
  returns a route without repetition.**
-/

namespace AieHlc.Route

open List AieHlc.Search

/-- What `bfsSingle` reads: the resources, and the walls. -/
structure Grid where
  mgr : ResourceMgr
  wall : Point → Bool

/-- `inGrid`. -/
def inGrid (g : Grid) (p : Point) : Bool :=
  decide (0 ≤ p.r) && decide (p.r < g.mgr.rows) && decide (0 ≤ p.c) && decide (p.c < g.mgr.cols)

/-- `kDirs`: up, down, left, right. -/
def kDirs : List Point := [⟨-1, 0⟩, ⟨1, 0⟩, ⟨0, -1⟩, ⟨0, 1⟩]

def M_start : ℤ := 1
def M_end : ℤ := 2

/-- `connectAvailable`. -/
def connectAvailable (g : Grid) (a b : Point) : Bool :=
  !(g.wall a || g.wall b) && inPartition g.mgr b && (linkAvailable g.mgr a b).isSome

/-- The tests of the inner loop of `bfsSingle` for one direction. -/
def moveTo (g : Grid) (cur d : Point) : Option Point :=
  if cur.r = 0 ∧ d.c ≠ 0 then none
  else if cur.r ≥ M_start ∧ cur.r ≤ M_end ∧ d.c ≠ 0 then none
  else
    let nxt : Point := ⟨cur.r + d.r, cur.c + d.c⟩
    if !inGrid g nxt || !connectAvailable g cur nxt then none else some nxt

/-- The tiles the inner loop comes to, in its order. -/
def neighbours (g : Grid) (cur : Point) : List Point := kDirs.filterMap (moveTo g cur)

/-- `getPriority`: memory tiles, then shim tiles, then core tiles. -/
def getPriority (p : Point) : ℕ :=
  if p.r ≥ M_start ∧ p.r ≤ M_end then 0 else if p.r = 0 then 1 else 2

/-- The order of queue entries: by priority, distance, row and column. -/
def entryLt (a b : ℕ × Point) : Bool :=
  if getPriority a.2 ≠ getPriority b.2 then decide (getPriority a.2 < getPriority b.2)
  else if a.1 ≠ b.1 then decide (a.1 < b.1)
  else if a.2.r ≠ b.2.r then decide (a.2.r < b.2.r)
  else decide (a.2.c < b.2.c)

/-- `top` and `pop` of the priority queue. -/
def popMin : List (ℕ × Point) → Option ((ℕ × Point) × List (ℕ × Point))
  | [] => none
  | e :: q =>
    let top := q.foldl (fun a b => if entryLt b a then b else a) e
    some (top, (e :: q).erase top)

/-- What `bfsSingle` leaves: its result, the vector it was given, the parents. -/
structure BfsResult where
  found : Bool
  out : List Point
  parent : Point → Point

/-- `bfsSingle`. -/
def bfsSingle (g : Grid) (parent : Point → Point) (start goal : Point) (out : List Point) (fuel : ℕ) :
    Option BfsResult :=
  if !inGrid g start || !inGrid g goal || g.wall start || g.wall goal then some ⟨false, out, parent⟩
  else
    (search popMin (neighbours g) goal fuel
      (Labels.init start (Function.update parent start ⟨-1, -1⟩))).bind fun s =>
      match s.dist goal with
      | none => some ⟨false, out, s.parent⟩
      | some _ => (backtrack s.parent start fuel goal out).map fun o =>
        ⟨true, (o ++ [start]).reverse, s.parent⟩

/-! ### Routes -/

/-- A move a stream may make: to a neighbour in the grid, not sideways in rows 0 to 2, not
into a wall, not out of the partition, over a link that is free. -/
structure Legal (g : Grid) (a b : Point) : Prop where
  near : Neighbours a b
  upright : a.r = b.r → ¬(0 ≤ a.r ∧ a.r ≤ 2)
  within : inGrid g b = true
  no_wall : g.wall b = false
  inside : inPartition g.mgr b = true
  link : (linkAvailable g.mgr a b).isSome = true

/-- A route: legal moves from a tile to another, both in the grid and not in a wall. -/
structure IsRoute (g : Grid) (start goal : Point) (path : List Point) : Prop where
  head : path.head? = some start
  last : path.getLast? = some goal
  start_in : inGrid g start = true
  start_open : g.wall start = false
  legal : path.IsChain (Legal g)

section Moves

variable {g : Grid} {a b start goal : Point}

theorem inGrid_iff {p : Point} : inGrid g p = true ↔ 0 ≤ p.r ∧ p.r < g.mgr.rows ∧ 0 ≤ p.c ∧
    p.c < g.mgr.cols := by
  simp only [inGrid, Bool.and_eq_true, decide_eq_true_eq, and_assoc]

theorem moveTo_eq_some {d : Point} : moveTo g a d = some b ↔
    ¬(a.r = 0 ∧ d.c ≠ 0) ∧ ¬(a.r ≥ M_start ∧ a.r ≤ M_end ∧ d.c ≠ 0) ∧ b = ⟨a.r + d.r, a.c + d.c⟩ ∧
      inGrid g b = true ∧ connectAvailable g a b = true := by
  unfold moveTo
  dsimp only
  by_cases h0 : a.r = 0 ∧ d.c ≠ 0
  · rw [if_pos h0]
    exact ⟨nofun, fun h => absurd h0 h.1⟩
  rw [if_neg h0]
  by_cases hm : a.r ≥ M_start ∧ a.r ≤ M_end ∧ d.c ≠ 0
  · rw [if_pos hm]
    exact ⟨nofun, fun h => absurd hm h.2.1⟩
  rw [if_neg hm]
  by_cases hok : (!inGrid g ⟨a.r + d.r, a.c + d.c⟩ || !connectAvailable g a ⟨a.r + d.r, a.c + d.c⟩) = true
  · rw [if_pos hok]
    refine ⟨nofun, ?_⟩
    rintro ⟨_, _, rfl, hin, hcon⟩
    rw [hin, hcon] at hok
    exact absurd hok Bool.false_ne_true
  · rw [if_neg hok]
    simp only [Bool.or_eq_true, Bool.not_eq_true', not_or, Bool.not_eq_false] at hok
    constructor
    · intro h
      obtain rfl := Option.some.inj h
      exact ⟨h0, hm, rfl, hok⟩
    · rintro ⟨_, _, rfl, _⟩
      rfl

theorem connectAvailable_iff : connectAvailable g a b = true ↔
    g.wall a = false ∧ g.wall b = false ∧ inPartition g.mgr b = true ∧
    (linkAvailable g.mgr a b).isSome = true := by
  simp only [connectAvailable, Bool.and_eq_true, Bool.not_eq_true', Bool.or_eq_false_iff, and_assoc]

/-- **The tiles of the inner loop** are those a legal move leads to. -/
theorem mem_neighbours (hin : inGrid g a = true) : b ∈ neighbours g a ↔ g.wall a = false ∧ Legal g a b := by
  obtain ⟨hr, _⟩ := inGrid_iff.1 hin
  constructor
  · intro h
    obtain ⟨d, hd, hmove⟩ := mem_filterMap.1 h
    obtain ⟨h0, hm, hb, hbin, hcon⟩ := moveTo_eq_some.1 hmove
    obtain ⟨hwa, hwb, hpart, hlink⟩ := connectAvailable_iff.1 hcon
    have hdir : (d.r = -1 ∧ d.c = 0) ∨ (d.r = 1 ∧ d.c = 0) ∨ (d.r = 0 ∧ d.c = -1) ∨ (d.r = 0 ∧ d.c = 1) := by
      simp only [kDirs, mem_cons, not_mem_nil, or_false] at hd
      rcases hd with rfl | rfl | rfl | rfl <;> simp
    have hbr : b.r = a.r + d.r := by rw [hb]
    have hbc : b.c = a.c + d.c := by rw [hb]
    unfold M_start M_end at hm
    refine ⟨hwa, ⟨?_, ?_, hbin, hwb, hpart, hlink⟩⟩
    · unfold Neighbours
      omega
    · omega
  · rintro ⟨hwa, h⟩
    have hnear := h.near
    have hup := h.upright
    unfold Neighbours at hnear
    refine mem_filterMap.2 ⟨⟨b.r - a.r, b.c - a.c⟩, ?_, moveTo_eq_some.2 ⟨?_, ?_, ?_, h.within, ?_⟩⟩
    · have hdir : (b.r - a.r = -1 ∧ b.c - a.c = 0) ∨ (b.r - a.r = 1 ∧ b.c - a.c = 0) ∨
          (b.r - a.r = 0 ∧ b.c - a.c = -1) ∨ (b.r - a.r = 0 ∧ b.c - a.c = 1) := by omega
      rcases hdir with ⟨h1, h2⟩ | ⟨h1, h2⟩ | ⟨h1, h2⟩ | ⟨h1, h2⟩ <;> rw [h1, h2] <;> decide
    · dsimp only
      omega
    · unfold M_start M_end
      dsimp only
      omega
    · obtain ⟨br, bc⟩ := b
      rw [Point.mk.injEq]
      dsimp only
      omega
    · exact connectAvailable_iff.2 ⟨hwa, h.no_wall, h.inside, h.link⟩

def tiles (g : Grid) : Finset Point :=
  (Finset.range g.mgr.rows ×ˢ Finset.range g.mgr.cols).image fun p => ⟨p.1, p.2⟩

theorem mem_tiles {p : Point} : p ∈ tiles g ↔ inGrid g p = true := by
  rw [inGrid_iff, tiles, Finset.mem_image]
  constructor
  · rintro ⟨⟨i, j⟩, hij, rfl⟩
    rw [Finset.mem_product, Finset.mem_range, Finset.mem_range] at hij
    exact ⟨Int.natCast_nonneg i, Int.ofNat_lt.2 hij.1, Int.natCast_nonneg j, Int.ofNat_lt.2 hij.2⟩
  · rintro ⟨hr, hrows, hc, hcols⟩
    refine ⟨(p.r.toNat, p.c.toNat), ?_, ?_⟩
    · rw [Finset.mem_product, Finset.mem_range, Finset.mem_range]
      dsimp only
      omega
    · obtain ⟨r, c⟩ := p
      rw [Point.mk.injEq]
      dsimp only at hr hc ⊢
      omega

theorem card_tiles_le (g : Grid) : (tiles g).card ≤ g.mgr.rows * g.mgr.cols := by
  refine Finset.card_image_le.trans ?_
  rw [Finset.card_product, Finset.card_range, Finset.card_range]

theorem neighbours_inGrid (h : b ∈ neighbours g a) : inGrid g b = true := by
  obtain ⟨d, _, hmove⟩ := mem_filterMap.1 h
  exact (moveTo_eq_some.1 hmove).2.2.2.1

theorem foldl_min_mem (q : List (ℕ × Point)) (e : ℕ × Point) :
    q.foldl (fun a b => if entryLt b a then b else a) e ∈ e :: q := by
  induction q generalizing e with
  | nil => exact mem_singleton.2 rfl
  | cons b q ih =>
    rw [foldl_cons]
    split
    · exact mem_cons_of_mem _ (ih b)
    · rcases mem_cons.1 (ih e) with heq | hin
      · rw [heq]
        exact mem_cons_self
      · exact mem_cons_of_mem _ (mem_cons_of_mem _ hin)

theorem popMin_pops : Pops popMin := by
  refine ⟨?_, ?_⟩
  · intro q h
    cases q with
    | nil => rfl
    | cons e q => exact nomatch h
  · intro q e q' h
    cases q with
    | nil => exact nomatch h
    | cons x q =>
      obtain ⟨rfl, rfl⟩ := Prod.mk.inj (Option.some.inj h)
      exact perm_cons_erase (foldl_min_mem q x)

theorem legal_of_chain (path : List Point) (hin : inGrid g a = true)
    (h : (a :: path).IsChain fun u v => v ∈ neighbours g u) : (a :: path).IsChain (Legal g) := by
  induction path generalizing a with
  | nil => exact isChain_singleton _
  | cons b path ih =>
    obtain ⟨hstep, hrest⟩ := isChain_cons_cons.1 h
    exact isChain_cons_cons.2 ⟨((mem_neighbours hin).1 hstep).2, ih (neighbours_inGrid hstep) hrest⟩

theorem reachable_of_legal (path : List Point) (hin : inGrid g a = true) (hopen : g.wall a = false)
    (h : (a :: path).IsChain (Legal g)) (hlast : (a :: path).getLast? = some goal) :
    Relation.ReflTransGen (fun u v => v ∈ neighbours g u) a goal := by
  induction path generalizing a with
  | nil =>
    obtain rfl := Option.some.inj hlast
    exact .refl
  | cons b path ih =>
    obtain ⟨hstep, hrest⟩ := isChain_cons_cons.1 h
    rw [getLast?_cons_cons] at hlast
    exact .head ((mem_neighbours hin).2 ⟨hopen, hstep⟩) (ih hstep.within hstep.no_wall hrest hlast)

theorem IsRoute.goal_open {path : List Point} (h : IsRoute g start goal path) :
    inGrid g goal = true ∧ g.wall goal = false := by
  have hall : ∀ (path : List Point) (a : Point), inGrid g a = true → g.wall a = false →
      (a :: path).IsChain (Legal g) → (a :: path).getLast? = some goal → inGrid g goal = true ∧
        g.wall goal = false := by
    intro path
    induction path with
    | nil =>
      intro a hin hopen _ hlast
      obtain rfl := Option.some.inj hlast
      exact ⟨hin, hopen⟩
    | cons b path ih =>
      intro a _ _ hchain hlast
      obtain ⟨hstep, hrest⟩ := isChain_cons_cons.1 hchain
      rw [getLast?_cons_cons] at hlast
      exact ih b hstep.within hstep.no_wall hrest hlast
  obtain ⟨tail, rfl⟩ := head?_eq_some_iff.1 h.head
  exact hall tail start h.start_in h.start_open h.legal h.last

end Moves

/-- **The search ends**, with rounds for the size of the grid: either with a route without
repetition, put before what the vector held (in reverse order), or there is none. -/
theorem bfsSingle_ends (g : Grid) (parent : Point → Point) (start goal : Point) (out : List Point) {fuel : ℕ}
    (hfuel : 2 * (g.mgr.rows * g.mgr.cols) * (g.mgr.rows * g.mgr.cols) + 1 < fuel) :
    ∃ r, bfsSingle g parent start goal out fuel = some r ∧
      (r.found = true → ∃ path, r.out = path ++ out.reverse ∧ IsRoute g start goal path ∧ path.Nodup) ∧
      (r.found = false → ∀ path, ¬IsRoute g start goal path) := by
  unfold bfsSingle
  by_cases hbad : (!inGrid g start || !inGrid g goal || g.wall start || g.wall goal) = true
  · rw [if_pos hbad]
    refine ⟨_, rfl, nofun, fun _ path hroute => ?_⟩
    obtain ⟨hgin, hgopen⟩ := hroute.goal_open
    rw [hroute.start_in, hroute.start_open, hgin, hgopen] at hbad
    exact absurd hbad Bool.false_ne_true
  rw [if_neg hbad]
  simp only [Bool.or_eq_true, Bool.not_eq_true', not_or, Bool.not_eq_false, Bool.not_eq_true] at hbad
  obtain ⟨⟨⟨hsin, _⟩, hsopen⟩, _⟩ := hbad
  have hcard := card_tiles_le g
  have hrounds : 2 * (tiles g).card * (tiles g).card + 1 < fuel :=
    (Nat.succ_le_succ (Nat.mul_le_mul (Nat.mul_le_mul_left 2 hcard) hcard)).trans_lt hfuel
  obtain ⟨s, hrun, hends, hbound, hiff⟩ := @search_spec Point _ popMin (neighbours g) (tiles g) start goal
    popMin_pops (fun v _ w hw => mem_tiles.2 (neighbours_inGrid (a := v) hw)) (mem_tiles.2 hsin)
    (Function.update parent start ⟨-1, -1⟩) fuel hrounds
  rw [hrun, Option.bind_some]
  cases hdist : s.dist goal with
  | none =>
    refine ⟨_, rfl, nofun, fun _ path hroute => ?_⟩
    obtain ⟨tail, rfl⟩ := head?_eq_some_iff.1 hroute.head
    exact hiff.2 (reachable_of_legal tail hsin hsopen hroute.legal hroute.last) hdist
  | some d =>
    have hd : d < fuel := by
      have hlt := ((hbound goal d hdist).2.trans_le (labelled_le (tiles g) s)).trans_le hcard
      have hsquare := Nat.le_mul_self (g.mgr.rows * g.mgr.cols)
      rw [mul_assoc] at hfuel
      omega
    obtain ⟨path, hback, hchain, hnodup, hlast, _⟩ := backtrack_spec hends fuel d goal out hdist hd
    rw [hback]
    refine ⟨_, rfl, fun _ => ⟨start :: path.reverse, ?_, ?_, hnodup⟩, nofun⟩
    · show (out ++ path ++ [start]).reverse = _
      rw [reverse_append, reverse_append]
      rfl
    · exact ⟨rfl, hlast, hsin, hsopen, legal_of_chain _ hsin hchain⟩

/-- What a search should do: it returns `true` exactly if there is a route, and then has
put a route without repetition before what the vector held (in reverse order). -/
structure SearchCorrect (g : Grid) (start goal : Point) (out : List Point) (r : BfsResult) : Prop where
  complete : r.found = true ↔ ∃ path, IsRoute g start goal path
  sound : r.found = true → ∃ path, r.out = path ++ out.reverse ∧ IsRoute g start goal path ∧ path.Nodup

/-- **Path search.** With rounds for the size of the grid the search ends, and it is
correct, whatever earlier searches left behind. -/
theorem bfsSingle_correct (g : Grid) (parent : Point → Point) (start goal : Point)
    (out : List Point) {fuel : ℕ}
    (hfuel : 2 * (g.mgr.rows * g.mgr.cols) * (g.mgr.rows * g.mgr.cols) + 1 < fuel) :
    ∃ r, bfsSingle g parent start goal out fuel = some r ∧ SearchCorrect g start goal out r := by
  obtain ⟨r, hrun, hfound, hnone⟩ := bfsSingle_ends g parent start goal out hfuel
  refine ⟨r, hrun, ⟨⟨?_, ?_⟩, hfound⟩⟩
  · intro h
    obtain ⟨path, _, hroute, _⟩ := hfound h
    exact ⟨path, hroute⟩
  · rintro ⟨path, hroute⟩
    by_contra hfalse
    exact hnone (Bool.not_eq_true _ ▸ hfalse) path hroute

/-- A grid without walls or a partition, with one free port each way on every side. -/
def freeGrid (rows cols : ℕ) : Grid :=
  ⟨⟨rows, cols, -1, -1, -1, -1, fun _ _ => ⟨[false], [false]⟩⟩, fun _ => false⟩

/-- From a shim tile to a core tile in the next column. -/
theorem bfsSingle_correct_free : ∃ r, bfsSingle (freeGrid 4 2) (fun p => p) ⟨0, 0⟩ ⟨3, 1⟩ [] 130 = some r ∧
    SearchCorrect (freeGrid 4 2) ⟨0, 0⟩ ⟨3, 1⟩ [] r :=
  bfsSingle_correct (freeGrid 4 2) (fun p => p) ⟨0, 0⟩ ⟨3, 1⟩ [] (by decide)

end AieHlc.Route
