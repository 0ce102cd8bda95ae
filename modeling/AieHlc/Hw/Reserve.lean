import AieHlc.Hw.Planes
import AieHlc.Search.Run
import Mathlib.Tactic.IntervalCases

/-!
# Reserving tiles

`reserveTiles` looks for tiles in a row for a data flow: down a column, or along a row. Columns or
rows are tried by their distance to the flow, and in each of them the first run of free tiles that
is long enough is taken. A column is a candidate if its tile in row 0 is in the partition.

* `TileMgr`: the tiles, who holds them, and the flows with the tiles they hold.
* `reserveTile`, `reserveTiles`: the code, for both strategies.
* `Qualifies`: a column or row that holds enough free tiles of the partition.
* `ExactReservation`: what a reservation should do.
* **`reserveTiles_exact_iff`**: it does so exactly when row 0 is in the partition, or does not matter.
-/

namespace AieHlc.Hw

open Option List AieHlc.Route AieHlc.Search

/-- What a `DataIO` has to do with reservations. -/
structure TileOwner where
  pos : Point
  reservedTiles : List Point

def TileOwner.add (ps : List Point) (io : TileOwner) : TileOwner :=
  { io with reservedTiles := io.reservedTiles ++ ps }

/-- The tiles of a manager; a tile is held by the flow that reserved it. -/
structure TileMgr extends Manager where
  type : Point → TileType
  reservedBy : Point → Option ℤ
  ios : ℤ → Option TileOwner

/-- `ReservationStrategy`. -/
inductive ReservationStrategy where
  | columnFirst
  | rowFirst
  deriving DecidableEq

namespace TileMgr

def InGrid (t : TileMgr) (p : Point) : Prop := 0 ≤ p.r ∧ p.r < t.rows ∧ 0 ≤ p.c ∧ p.c < t.cols

instance (t : TileMgr) (p : Point) : Decidable (t.InGrid p) := inferInstanceAs (Decidable (_ ∧ _))

/-- `isTileReserved`: what is not in the grid counts as reserved. -/
def isTileReserved (t : TileMgr) (p : Point) : Bool := if ¬t.InGrid p then true else (t.reservedBy p).isSome

/-- `setReserved`. -/
def setReserved (t : TileMgr) (p : Point) (by_ : Option ℤ) : TileMgr :=
  { t with reservedBy := Function.update t.reservedBy p by_ }

/-- `addReservedTile` of a flow, if there is one of this id. -/
def addReservedTile (t : TileMgr) (ioId : ℤ) (p : Point) : TileMgr :=
  { t with ios := Function.update t.ios ioId ((t.ios ioId).map (TileOwner.add [p])) }

/-- `reserveTile`: none where it returns false. -/
def reserveTile (t : TileMgr) (p : Point) (ioId : ℤ) : Option TileMgr :=
  if ¬t.InGrid p then none
  else if (t.reservedBy p).isSome then none
  else some ((t.setReserved p (some ioId)).addReservedTile ioId p)

/-- The loop that reserves the tiles of a run: the tiles it got, and whether these are all of them. -/
def reserveEach (ioId : ℤ) : List Point → TileMgr → List Point × Bool × TileMgr
  | [], t => ([], true, t)
  | p :: ps, t => match t.reserveTile p ioId with
    | none => ([], false, t)
    | some t' => (p :: (reserveEach ioId ps t').1, (reserveEach ioId ps t').2)

/-- The rollback: the tiles are free again. The flow's list keeps them. -/
def rollback (ps : List Point) (t : TileMgr) : TileMgr := ps.foldl (fun t p => t.setReserved p none) t

end TileMgr

/-! ### The two strategies -/

section Strategy

variable (t : TileMgr)

def ReservationStrategy.tileAt : ReservationStrategy → ℤ → ℤ → Point
  | .columnFirst, line, pos => ⟨pos, line⟩
  | .rowFirst, line, pos => ⟨line, pos⟩

/-- The lines that are tried: columns whose tile in row 0 is in the partition, or rows of the partition. -/
def ReservationStrategy.lines : ReservationStrategy → List ℕ
  | .columnFirst => (range t.cols).filter fun c => t.isTileInPartition ⟨0, c⟩
  | .rowFirst => (range t.rows).filter fun r => t.isRowInPartition r

def ReservationStrategy.len : ReservationStrategy → ℕ
  | .columnFirst => t.rows
  | .rowFirst => t.cols

/-- The positions of a line that are in the partition. -/
def ReservationStrategy.inside : ReservationStrategy → ℕ → Bool
  | .columnFirst, r => t.isRowInPartition r
  | .rowFirst, c => t.isColInPartition c

/-- The coordinate of the flow that lines are near to. -/
def ReservationStrategy.near : ReservationStrategy → Point → ℤ
  | .columnFirst, p => p.c
  | .rowFirst, p => p.r

/-- The tile is free, and of the requested type. -/
def tileAvailable (requestedType : Option TileType) (p : Point) : Bool :=
  !t.isTileReserved p && requestedType.all fun ty => t.type p = ty

end Strategy

section Model

variable (ioId : ℤ) (n : ℕ) (strategy : ReservationStrategy) (requestedType : Option TileType)

def runTiles (line first : ℕ) : List Point := (range n).map fun i => strategy.tileAt line (first + i : ℕ)

/-- The first run of `n` free tiles of a line. -/
def findTiles (t : TileMgr) (line : ℕ) : Option ℕ :=
  findRun (strategy.inside t) (fun pos => tileAvailable t requestedType (strategy.tileAt line pos))
    n (strategy.len t)

/-- The loop over the lines, in the order they are tried. -/
def tryLines : List ℕ → TileMgr → Option (List Point) × TileMgr
  | [], t => (none, t)
  | line :: lines, t => match findTiles n strategy requestedType t line with
    | none => tryLines lines t
    | some first =>
      let got := t.reserveEach ioId (runTiles n strategy line first)
      if got.2.1 then (some got.1, got.2.2) else tryLines lines (got.2.2.rollback got.1)

/-- `reserveTiles`: the tiles, if it returns true. `order` is `std::sort` by the distance to a coordinate. -/
def reserveTiles (order : ℤ → List ℕ → List ℕ) (t : TileMgr) (numTiles : ℤ) (startPoint : Option Point) :
    Option (List Point) × TileMgr :=
  if numTiles ≤ 0 then (some [], t)
  else match t.ios ioId with
    | none => (none, t)
    | some io =>
      tryLines ioId numTiles.toNat strategy requestedType
        (order (strategy.near (startPoint.getD io.pos)) (strategy.lines t)) t

end Model

/-- The distance of a line to a coordinate. -/
def dist (start : ℤ) (line : ℕ) : ℕ := (line - start).natAbs

/-- `std::sort` by distance: any order of lines at the same distance. -/
structure Sorts (order : ℤ → List ℕ → List ℕ) : Prop where
  perm : ∀ start l, (order start l).Perm l
  sorted : ∀ start l, (order start l).Pairwise fun a b => dist start a ≤ dist start b

/-! ### What a reservation should do -/

section Spec

variable (t : TileMgr) (strategy : ReservationStrategy) (requestedType : Option TileType)

/-- A tile of the partition that is not reserved and of the type. -/
structure FreeTile (p : Point) : Prop where
  inGrid : t.InGrid p
  inPartition : t.isTileInPartition p = true
  unreserved : t.reservedBy p = none
  type : ∀ ty ∈ requestedType, t.type p = ty

/-- The line holds `n` free tiles in a row. -/
def Qualifies (n line : ℕ) : Prop :=
  ∃ first : ℕ, ∀ p ∈ runTiles n strategy line first, FreeTile t requestedType p

/-- Tiles that were reserved for a flow, and nothing else. -/
structure Takes (ioId : ℤ) (tiles : List Point) (t' : TileMgr) : Prop where
  grid : t'.toManager = t.toManager ∧ t'.type = t.type
  reserved : ∀ p, t'.reservedBy p = if p ∈ tiles then some ioId else t.reservedBy p
  listed : t'.ios = Function.update t.ios ioId ((t.ios ioId).map (TileOwner.add tiles))

/-- **An exact reservation**: it succeeds if some line holds the tiles, it takes a run of a nearest
such line, and it changes nothing if it fails. An empty request needs no line. -/
structure ExactReservation (ioId numTiles start : ℤ) (res : Option (List Point) × TileMgr) : Prop where
  succeeds : res.1.isSome ↔ numTiles ≤ 0 ∨ ∃ line, Qualifies t strategy requestedType numTiles.toNat line
  takes : ∀ tiles, res.1 = some tiles → Takes t ioId tiles res.2 ∧ (numTiles ≤ 0 → tiles = []) ∧
    (0 < numTiles → ∃ line first : ℕ, tiles = runTiles numTiles.toNat strategy line first ∧
      (∀ p ∈ tiles, FreeTile t requestedType p) ∧
      ∀ line', Qualifies t strategy requestedType numTiles.toNat line' → dist start line ≤ dist start line')
  fails : res.1 = none → res.2 = t

end Spec

/-! ### Reserving a run -/

section Reserve

variable {t t' t'' : TileMgr} {ioId : ℤ} {ps qs : List Point}

theorem TileOwner.add_add (io : TileOwner) : (io.add ps).add qs = io.add (ps ++ qs) := by
  simp [TileOwner.add]

theorem TileOwner.add_nil (io : TileOwner) : io.add [] = io := by
  simp [TileOwner.add]

theorem Takes.nil (t : TileMgr) (ioId : ℤ) : Takes t ioId [] t := by
  refine ⟨⟨rfl, rfl⟩, fun p => (if_neg (by simp)).symm, ?_⟩
  have hmap : (t.ios ioId).map (TileOwner.add []) = t.ios ioId := by
    cases t.ios ioId with
    | none => rfl
    | some io => simp [TileOwner.add_nil]
  rw [hmap, Function.update_eq_self]

theorem Takes.trans (h : Takes t ioId ps t') (h' : Takes t' ioId qs t'') : Takes t ioId (ps ++ qs) t'' := by
  refine ⟨⟨h'.grid.1.trans h.grid.1, h'.grid.2.trans h.grid.2⟩, ?_, ?_⟩
  · intro p
    rw [h'.reserved, h.reserved]
    by_cases hq : p ∈ qs
    · simp [hq]
    · simp [hq]
  · rw [h'.listed, h.listed, Function.update_self, Function.update_idem, Option.map_map]
    congr 1
    cases t.ios ioId with
    | none => rfl
    | some io => simp [TileOwner.add_add]

theorem reserveTile_takes {p : Point} (hin : t.InGrid p) (hfree : t.reservedBy p = none) :
    ∃ t', t.reserveTile p ioId = some t' ∧ Takes t ioId [p] t' := by
  refine ⟨(t.setReserved p (some ioId)).addReservedTile ioId p, ?_, ⟨rfl, rfl⟩, ?_, rfl⟩
  · simp [TileMgr.reserveTile, hin, hfree]
  · intro q
    by_cases hq : q = p
    · subst hq
      simp [TileMgr.addReservedTile, TileMgr.setReserved]
    · simp [TileMgr.addReservedTile, TileMgr.setReserved, hq]

theorem reserveEach_takes :
    ∀ (ps : List Point) (t : TileMgr), ps.Nodup → (∀ p ∈ ps, t.InGrid p ∧ t.reservedBy p = none) →
    ∃ t', t.reserveEach ioId ps = (ps, true, t') ∧ Takes t ioId ps t' := by
  intro ps
  induction ps with
  | nil => exact fun t _ _ => ⟨t, rfl, Takes.nil t ioId⟩
  | cons p ps ih =>
    intro t hnd hfree
    obtain ⟨hp, hnd⟩ := nodup_cons.1 hnd
    obtain ⟨hin, hnone⟩ := hfree p mem_cons_self
    obtain ⟨t₁, hstep, h₁⟩ := @reserveTile_takes t ioId p hin hnone
    -- the tiles that are left are still free, since they are other tiles
    have hrest : ∀ q ∈ ps, t₁.InGrid q ∧ t₁.reservedBy q = none := by
      intro q hq
      have hne : q ∉ [p] := fun h => hp (mem_singleton.1 h ▸ hq)
      obtain ⟨hin', hnone'⟩ := hfree q (mem_cons_of_mem _ hq)
      rw [h₁.reserved, if_neg hne]
      unfold TileMgr.InGrid
      rw [h₁.grid.1]
      exact ⟨hin', hnone'⟩
    obtain ⟨t', hrun, h'⟩ := ih t₁ hnd hrest
    refine ⟨t', ?_, h₁.trans h'⟩
    simp [TileMgr.reserveEach, hstep, hrun]

end Reserve

/-! ### Finding a run -/

section Find

variable {t : TileMgr} {n : ℕ} {strategy : ReservationStrategy} {requestedType : Option TileType} {line : ℕ}

theorem inside_convex (t : TileMgr) (strategy : ReservationStrategy) : Convex (strategy.inside t) := by
  intro a b c hab hbc ha hc
  cases strategy with
  | columnFirst =>
    simp only [ReservationStrategy.inside, Manager.isRowInPartition, Manager.hasPartition, Bool.or_eq_true,
      Bool.and_eq_true, Bool.not_eq_true', decide_eq_true_eq, decide_eq_false_iff_not] at ha hc ⊢
    omega
  | rowFirst =>
    simp only [ReservationStrategy.inside, Manager.isColInPartition, Manager.hasPartition, Bool.or_eq_true,
      Bool.and_eq_true, Bool.not_eq_true', decide_eq_true_eq, decide_eq_false_iff_not] at ha hc ⊢
    omega

theorem tileAt_inj (strategy : ReservationStrategy) (line : ℤ) {a b : ℤ}
    (h : strategy.tileAt line a = strategy.tileAt line b) : a = b := by
  cases strategy with
  | columnFirst => exact (Point.mk.inj h).1
  | rowFirst => exact (Point.mk.inj h).2

theorem nodup_runTiles (n : ℕ) (strategy : ReservationStrategy) (line first : ℕ) :
    (runTiles n strategy line first).Nodup := by
  apply nodup_range.map
  intro i j h
  have heq := tileAt_inj strategy line h
  omega

theorem mem_runTiles {first : ℕ} {p : Point} :
    p ∈ runTiles n strategy line first ↔ ∃ i < n, strategy.tileAt line (first + i : ℕ) = p := by
  simp [runTiles]

/-- The line can be tried at all. -/
def ReservationStrategy.InLines (strategy : ReservationStrategy) (t : TileMgr) (line : ℕ) : Prop :=
  match strategy with
  | .columnFirst => line < t.cols ∧ t.isColInPartition line = true
  | .rowFirst => line < t.rows ∧ t.isRowInPartition line = true

theorem tileAvailable_iff {p : Point} : tileAvailable t requestedType p = true ↔
    t.InGrid p ∧ t.reservedBy p = none ∧ ∀ ty ∈ requestedType, t.type p = ty := by
  by_cases hin : t.InGrid p
  · cases requestedType with
    | none => simp [tileAvailable, TileMgr.isTileReserved, hin]
    | some ty => simp [tileAvailable, TileMgr.isTileReserved, hin]
  · simp [tileAvailable, TileMgr.isTileReserved, hin]

theorem freeTile_iff {pos : ℕ} : FreeTile t requestedType (strategy.tileAt line pos) ↔
    strategy.InLines t line ∧
    pos < strategy.len t ∧ strategy.inside t pos = true ∧
      tileAvailable t requestedType (strategy.tileAt line pos) = true := by
  rw [tileAvailable_iff]
  constructor
  · rintro ⟨hin, hpart, hfree, hty⟩
    obtain ⟨hcol, hrow⟩ := Bool.and_eq_true_iff.1 hpart
    have hgrid := hin
    unfold TileMgr.InGrid at hgrid
    cases strategy with
    | columnFirst =>
      simp only [ReservationStrategy.tileAt] at hgrid
      exact ⟨⟨by omega, hcol⟩, by show pos < t.rows; omega, hrow, hin, hfree, hty⟩
    | rowFirst =>
      simp only [ReservationStrategy.tileAt] at hgrid
      exact ⟨⟨by omega, hrow⟩, by show pos < t.cols; omega, hcol, hin, hfree, hty⟩
  · rintro ⟨hline, _, hinside, hin, hfree, hty⟩
    refine ⟨hin, ?_, hfree, hty⟩
    cases strategy with
    | columnFirst => exact Bool.and_eq_true_iff.2 ⟨hline.2, hinside⟩
    | rowFirst => exact Bool.and_eq_true_iff.2 ⟨hinside, hline.2⟩

theorem mem_lines : line ∈ strategy.lines t ↔
    strategy.InLines t line ∧ (strategy = .columnFirst → t.isRowInPartition 0 = true) := by
  cases strategy with
  | columnFirst =>
    simp [ReservationStrategy.lines, ReservationStrategy.InLines, Manager.isTileInPartition, and_assoc]
  | rowFirst => simp [ReservationStrategy.lines, ReservationStrategy.InLines]

theorem Qualifies.inLines (hn : 0 < n) (h : Qualifies t strategy requestedType n line) :
    strategy.InLines t line := by
  obtain ⟨first, hfree⟩ := h
  exact (freeTile_iff.1 (hfree _ (mem_runTiles.2 ⟨0, hn, rfl⟩))).1

theorem findTiles_some (hn : 0 < n) {first : ℕ} (h : findTiles n strategy requestedType t line = some first) :
    (∀ p ∈ runTiles n strategy line first, t.InGrid p ∧ t.reservedBy p = none) ∧
      (strategy.InLines t line → ∀ p ∈ runTiles n strategy line first, FreeTile t requestedType p) := by
  have hspec := (findRun_spec (inside_convex t strategy) hn (strategy.len t)).1 first h
  refine ⟨?_, ?_⟩
  · intro p hp
    obtain ⟨i, hi, rfl⟩ := mem_runTiles.1 hp
    obtain ⟨hin, hfree, _⟩ := tileAvailable_iff.1 (hspec i hi).2.2
    exact ⟨hin, hfree⟩
  · intro hline p hp
    obtain ⟨i, hi, rfl⟩ := mem_runTiles.1 hp
    exact freeTile_iff.2 ⟨hline, hspec i hi⟩

theorem findTiles_none (hn : 0 < n) (h : findTiles n strategy requestedType t line = none) :
    ¬Qualifies t strategy requestedType n line := by
  rintro ⟨first, hfree⟩
  refine (findRun_spec (inside_convex t strategy) hn (strategy.len t)).2 h first ?_
  intro j hj
  exact (freeTile_iff.1 (hfree _ (mem_runTiles.2 ⟨j, hj, rfl⟩))).2

/-- **The loop over the lines** takes a run of the first line that has one, or changes nothing. -/
theorem tryLines_cases (hn : 0 < n) (ioId : ℤ) : ∀ ls : List ℕ,
    (∃ pre line post first t', ls = pre ++ line :: post ∧
      (∀ l ∈ pre, findTiles n strategy requestedType t l = none) ∧
      findTiles n strategy requestedType t line = some first ∧
      tryLines ioId n strategy requestedType ls t = (some (runTiles n strategy line first), t') ∧
      Takes t ioId (runTiles n strategy line first) t') ∨
    ((∀ l ∈ ls, findTiles n strategy requestedType t l = none) ∧
      tryLines ioId n strategy requestedType ls t = (none, t)) := by
  intro ls
  induction ls with
  | nil =>
    right
    exact ⟨fun l hl => (by cases hl), rfl⟩
  | cons line ls ih =>
    cases hfind : findTiles n strategy requestedType t line with
    | some first =>
      left
      obtain ⟨t', hrun, htakes⟩ := @reserveEach_takes ioId (runTiles n strategy line first) t
        (nodup_runTiles n strategy line first) (findTiles_some hn hfind).1
      refine ⟨[], line, ls, first, t', rfl, fun l hl => (by cases hl), hfind, ?_, htakes⟩
      simp [tryLines, hfind, hrun]
    | none =>
      have hstep : tryLines ioId n strategy requestedType (line :: ls) t =
          tryLines ioId n strategy requestedType ls t := by
        simp [tryLines, hfind]
      rw [hstep]
      rcases ih with ⟨pre, l, post, first, t', rfl, hpre, hl, hres⟩ | ⟨hall, hres⟩
      · left
        refine ⟨line :: pre, l, post, first, t', rfl, ?_, hl, hres⟩
        intro x hx
        rcases mem_cons.1 hx with rfl | hx
        · exact hfind
        · exact hpre x hx
      · right
        refine ⟨?_, hres⟩
        intro x hx
        rcases mem_cons.1 hx with rfl | hx
        · exact hfind
        · exact hall x hx

end Find

/-! ### Exactness -/

section Exact

variable {t : TileMgr} {strategy : ReservationStrategy} {requestedType : Option TileType} {ioId numTiles : ℤ}
  {order : ℤ → List ℕ → List ℕ} {io : TileOwner}

/-- Row 0 is in the partition, or no column is asked for that could be found. -/
def RowZeroAgrees (t : TileMgr) (strategy : ReservationStrategy) (requestedType : Option TileType)
    (numTiles : ℤ) : Prop :=
  strategy = .columnFirst → 0 < numTiles → (∃ line, Qualifies t strategy requestedType numTiles.toNat line) →
    t.isRowInPartition 0 = true

theorem exact_empty (hn : numTiles ≤ 0) (start : ℤ) :
    ExactReservation t strategy requestedType ioId numTiles start (some [], t) := by
  refine ⟨by simp [hn], ?_, fun h => (by cases h)⟩
  intro tiles h
  obtain rfl := some.inj h
  exact ⟨Takes.nil t ioId, fun _ => rfl, fun hpos => absurd hn (by omega)⟩

/-- If the lines that are tried are all that could qualify, the reservation is exact. -/
theorem exact_of_agrees (hsort : Sorts order) (hn : 0 < numTiles) (start : ℤ)
    (hrow : RowZeroAgrees t strategy requestedType numTiles) :
    ExactReservation t strategy requestedType ioId numTiles start
      (tryLines ioId numTiles.toNat strategy requestedType (order start (strategy.lines t)) t) := by
  have hpos : 0 < numTiles.toNat := by omega
  have hmem : ∀ {line}, Qualifies t strategy requestedType numTiles.toNat line →
      line ∈ order start (strategy.lines t) := by
    intro line hq
    apply (hsort.perm start _).mem_iff.2
    exact mem_lines.2 ⟨hq.inLines hpos, fun hs => hrow hs hn ⟨line, hq⟩⟩
  rcases @tryLines_cases t numTiles.toNat strategy requestedType hpos ioId
    (order start (strategy.lines t)) with
    ⟨pre, line, post, first, t', hls, hpre, hfind, hres, htakes⟩ | ⟨hall, hres⟩
  · have hline : strategy.InLines t line := by
      have hin : line ∈ order start (strategy.lines t) := by simp [hls]
      exact (mem_lines.1 ((hsort.perm start _).mem_iff.1 hin)).1
    have hfree := (findTiles_some hpos hfind).2 hline
    rw [hres]
    refine ⟨?_, ?_, fun h => (by cases h)⟩
    · simp only [isSome_some, true_iff]
      exact .inr ⟨line, first, hfree⟩
    · intro tiles htiles
      obtain rfl := some.inj htiles
      refine ⟨htakes, fun hle => absurd hn (by omega), fun _ => ⟨line, first, rfl, hfree, ?_⟩⟩
      -- a line that qualifies was not passed over, so it comes with this one or after it
      intro line' hq
      have hsorted := hsort.sorted start (strategy.lines t)
      rw [hls] at hsorted
      have hin := hmem hq
      rw [hls] at hin
      rcases mem_append.1 hin with hin | hin
      · exact absurd hq (findTiles_none hpos (hpre line' hin))
      · rcases mem_cons.1 hin with rfl | hin
        · exact le_rfl
        · exact (pairwise_cons.1 (pairwise_append.1 hsorted).2.1).1 line' hin
  · rw [hres]
    refine ⟨?_, fun tiles h => (by cases h), fun _ => rfl⟩
    simp only [isSome_none, Bool.false_eq_true, false_iff]
    rintro (hle | ⟨line, hq⟩)
    · omega
    · exact findTiles_none hpos (hall line (hmem hq)) hq

/-- Without row 0 no column is tried, so a column that qualifies is not found. -/
theorem tryLines_columns_none (hsort : Sorts order) (hout : ¬t.isRowInPartition 0 = true) (n : ℕ)
    (start : ℤ) :
    tryLines ioId n .columnFirst requestedType (order start (ReservationStrategy.lines t .columnFirst)) t =
      (none, t) := by
  have hnil : ReservationStrategy.lines t .columnFirst = [] := by
    apply eq_nil_iff_forall_not_mem.2
    intro line hline
    exact hout ((mem_lines.1 hline).2 rfl)
  have hempty : order start [] = [] := perm_nil.1 (hsort.perm start [])
  rw [hnil, hempty]
  rfl

/-- **A reservation for a known flow is exact exactly when row 0 is in the partition or does not
matter**: for every grid, partition, reserved tiles, type, number of tiles, strategy and start. -/
theorem reserveTiles_exact_iff (hsort : Sorts order) (hio : t.ios ioId = some io)
    (startPoint : Option Point) :
    ExactReservation t strategy requestedType ioId numTiles (strategy.near (startPoint.getD io.pos))
        (reserveTiles ioId strategy requestedType order t numTiles startPoint) ↔
      RowZeroAgrees t strategy requestedType numTiles := by
  unfold reserveTiles
  by_cases hn : numTiles ≤ 0
  · rw [if_pos hn]
    refine ⟨fun _ _ hpos => absurd hn (by omega), fun _ => exact_empty hn _⟩
  · rw [if_neg hn, hio]
    refine ⟨?_, fun hrow => exact_of_agrees hsort (by omega) _ hrow⟩
    rintro hexact rfl hpos hq
    by_contra hout
    have hsucc := hexact.succeeds.2 (.inr hq)
    dsimp only at hsucc
    rw [tryLines_columns_none hsort hout] at hsucc
    exact absurd hsucc (by simp)

end Exact

/-! ### A partition above row 0 -/

/-- Lines by distance, those at the same distance in their own order. -/
def byDistance (start : ℤ) (l : List ℕ) : List ℕ := l.mergeSort fun a b => dist start a ≤ dist start b

theorem byDistance_sorts : Sorts byDistance := by
  refine ⟨fun start l => mergeSort_perm l _, ?_⟩
  intro start l
  have htrans : ∀ a b c : ℕ, decide (dist start a ≤ dist start b) = true →
    decide (dist start b ≤ dist start c) = true →
      decide (dist start a ≤ dist start c) = true := by
    intro a b c hab hbc
    exact decide_eq_true (le_trans (of_decide_eq_true hab) (of_decide_eq_true hbc))
  have htotal : ∀ a b : ℕ, (decide (dist start a ≤ dist start b) ||
      decide (dist start b ≤ dist start a)) = true := by
    intro a b
    simpa using le_total (dist start a) (dist start b)
  refine (pairwise_mergeSort htrans htotal l).imp ?_
  intro a b h
  exact of_decide_eq_true h

/-- Five rows, the upper three of them cores; nothing is reserved, and flow 7 starts at the shim of
column 1. -/
def freeTiles (m : Manager) : TileMgr where
  toManager := m
  type p := if p.r < 2 then .mem else .core
  reservedBy _ := none
  ios id := if id = 7 then some ⟨⟨0, 1⟩, []⟩ else none

/-- A partition of the core rows only. -/
def coreRows : Manager :=
  { fiveRows with partitionStartCol := 0, partitionEndCol := 3, partitionStartRow := 2, partitionEndRow := 4 }

/-- The core rows of every column qualify, in any partition that holds them. -/
theorem freeTiles_qualifies (m : Manager) (hrows : m.rows = 5) (hcols : m.cols = 4)
    (hin : ∀ r : ℕ, 2 ≤ r → r < 5 → m.isTileInPartition ⟨r, 1⟩ = true) :
    Qualifies (freeTiles m) .columnFirst (some .core) 2 1 := by
  refine ⟨2, ?_⟩
  intro p hp
  obtain ⟨i, hi, rfl⟩ := mem_runTiles.1 hp
  refine ⟨?_, hin (2 + i) (by omega) (by omega), rfl, ?_⟩
  · unfold TileMgr.InGrid
    simp only [ReservationStrategy.tileAt, freeTiles, hrows, hcols]
    omega
  · intro ty hty
    obtain rfl := mem_some.1 hty
    have hrow : ¬((2 + i : ℕ) : ℤ) < 2 := by omega
    exact if_neg hrow

/-- On the whole grid two cores of a column are reserved exactly. -/
theorem reserveTiles_exact_whole :
    ExactReservation (freeTiles fiveRows) .columnFirst (some .core) 7 2 1
      (reserveTiles 7 .columnFirst (some .core) byDistance (freeTiles fiveRows) 2 none) :=
  (@reserveTiles_exact_iff (freeTiles fiveRows) .columnFirst (some .core) 7 2 byDistance
    ⟨⟨0, 1⟩, []⟩ byDistance_sorts rfl
    none).2 fun _ _ _ => rfl

/-- In the partition of the core rows column 1 holds two free cores, and the reservation fails. -/
theorem not_exact_coreRows : Qualifies (freeTiles coreRows) .columnFirst (some .core) 2 1 ∧
    (reserveTiles 7 .columnFirst (some .core) byDistance (freeTiles coreRows) 2 none).1 = none ∧
    ¬ExactReservation (freeTiles coreRows) .columnFirst (some .core) 7 2 1
      (reserveTiles 7 .columnFirst (some .core) byDistance (freeTiles coreRows) 2 none) := by
  have hq : Qualifies (freeTiles coreRows) .columnFirst (some .core) 2 1 := by
    apply freeTiles_qualifies coreRows rfl rfl
    intro r hlow hhigh
    interval_cases r
    · rfl
    · rfl
    · rfl
  have hnone : (reserveTiles 7 .columnFirst (some .core) byDistance
      (freeTiles coreRows) 2 none).1 = none := by
    have hout : ¬(freeTiles coreRows).isRowInPartition 0 = true := by decide
    show (tryLines 7 2 .columnFirst (some .core) (byDistance 1 _) (freeTiles coreRows)).1 = none
    rw [tryLines_columns_none byDistance_sorts hout]
  refine ⟨hq, hnone, ?_⟩
  intro hexact
  have hsucc := hexact.succeeds.2 (.inr ⟨1, hq⟩)
  rw [hnone] at hsucc
  exact absurd hsucc (by simp)

end AieHlc.Hw
