import Mathlib.Data.Int.Notation
import Mathlib.Logic.Function.Basic
import Mathlib.Data.Nat.Notation
import Mathlib.Tactic.SplitIfs

/-!
# Tiles, links and ports

The grid of tiles a stream is routed over (`ResourceManager.cpp`, `hwresource.h`): points,
directions between neighbours, the ports of each tile with their use, and the partition.

* `linkAvailable`, `occupyLink`: a free port pair between neighbours, and taking it.
* `towards_of_getDir`, `getDir_of_towards`: directions are those of neighbours.
* `occupyLink_dirs`: a link that is taken leads from one point to the other.
-/

namespace AieHlc.Route

open Option

variable {a b : Point} {d : PortDirection}

/-- `Point`: row and column. -/
structure Point where
  r : ℤ
  c : ℤ
  deriving DecidableEq, Repr

/-- `PortDirection`. -/
inductive PortDirection where
  | north
  | south
  | east
  | west
  | dma
  | control
  | none
  deriving DecidableEq, Repr

/-- `opposite`. -/
def opposite : PortDirection → PortDirection
  | .north => .south
  | .south => .north
  | .east => .west
  | .west => .east
  | d => d

/-- `getDir`; there is no value where it throws. -/
def getDir (a b : Point) : Option PortDirection :=
  if a.r = b.r - 1 ∧ b.c = a.c then some .north
  else if a.r = b.r + 1 ∧ b.c = a.c then some .south
  else if b.c = a.c - 1 ∧ b.r = a.r then some .west
  else if b.c = a.c + 1 ∧ b.r = a.r then some .east
  else none

/-- The point next to `a` in a direction. -/
def towards (a : Point) : PortDirection → Option Point
  | .north => some ⟨a.r + 1, a.c⟩
  | .south => some ⟨a.r - 1, a.c⟩
  | .east => some ⟨a.r, a.c + 1⟩
  | .west => some ⟨a.r, a.c - 1⟩
  | _ => none

/-- Points that share an edge of the grid. -/
def Neighbours (a b : Point) : Prop := (a.r - b.r).natAbs + (a.c - b.c).natAbs = 1

/-- **Directions** lead to the neighbour they are named for. -/
theorem towards_of_getDir (h : getDir a b = some d) : towards a d = some b := by
  obtain ⟨br, bc⟩ := b
  unfold getDir at h
  dsimp only at h
  split_ifs at h with h1 h2 h3 h4
  · obtain rfl := some.inj h
    obtain ⟨hr, rfl⟩ := h1
    rw [towards, hr, Int.sub_add_cancel]
  · obtain rfl := some.inj h
    obtain ⟨hr, rfl⟩ := h2
    rw [towards, hr, Int.add_sub_cancel]
  · obtain rfl := some.inj h
    obtain ⟨rfl, rfl⟩ := h3
    rfl
  · obtain rfl := some.inj h
    obtain ⟨rfl, rfl⟩ := h4
    rfl

theorem getDir_of_towards (h : towards a d = some b) : getDir a b = some d := by
  cases d with
  | dma => exact nomatch h
  | control => exact nomatch h
  | none => exact nomatch h
  | _ =>
    obtain rfl := some.inj h
    unfold getDir
    dsimp only
    split_ifs <;> first | rfl | omega

theorem getDir_symm (h : getDir a b = some d) : getDir b a = some (opposite d) := by
  have hb := towards_of_getDir h
  cases d with
  | dma => exact nomatch hb
  | control => exact nomatch hb
  | none => exact nomatch hb
  | _ =>
    obtain rfl := some.inj hb
    refine getDir_of_towards ?_
    simp only [opposite, towards, Int.add_sub_cancel, Int.sub_add_cancel]

theorem getDir_ne_none : getDir a b ≠ some .none := fun h => nomatch towards_of_getDir h

theorem getDir_inj {b' : Point} (h : getDir a b = some d) (h' : getDir a b' = some d) : b = b' :=
  some.inj ((towards_of_getDir h).symm.trans (towards_of_getDir h'))

/-- `DirBank`: which master and slave ports of one direction are used. -/
structure DirBank where
  master : List Bool
  slave : List Bool

/-- What routing reads of the `ResourceMgr`: the size, the partition (negative where it is
not set) and the port banks of all tiles. -/
structure ResourceMgr where
  rows : ℕ
  cols : ℕ
  partitionStartCol : ℤ
  partitionEndCol : ℤ
  partitionStartRow : ℤ
  partitionEndRow : ℤ
  bank : Point → PortDirection → DirBank

variable (m : ResourceMgr)

variable (p : Point)

/-- `inPartition`. -/
def inPartition : Bool :=
  (decide (m.partitionStartCol < 0) ||
    (decide (p.c ≥ m.partitionStartCol) && decide (p.c ≤ m.partitionEndCol))) &&
    (decide (m.partitionStartCol < 0) || decide (m.partitionStartRow < 0) ||
      (decide (p.r ≥ m.partitionStartRow) && decide (p.r ≤ m.partitionEndRow)))

/-- The test of one channel in `linkAvailable`: neither port is used, in neither sense. -/
def channelFree (a b : DirBank) (ch : ℕ) : Bool :=
  !(a.slave.getD ch false || b.master.getD ch false) && !(a.master.getD ch false || b.slave.getD ch false)

/-- `linkAvailable`: the first free port index, if there is one. -/
def linkAvailable (a b : Point) : Option ℕ :=
  (getDir a b).bind fun dir =>
    let va := m.bank a dir
    let vb := m.bank b (opposite dir)
    (List.range (min va.slave.length vb.master.length)).find? (channelFree va vb)

/-- The bank of one direction of one tile, changed. -/
def ResourceMgr.setBank (dir : PortDirection) (b : DirBank) : ResourceMgr :=
  { m with bank := Function.update m.bank p (Function.update (m.bank p) dir b) }

/-- `RoutingTile::allocate` for `IOType::Output`: a slave port, unless it is used. -/
def allocateOutput (idx : ℕ) (dir : PortDirection) : Option ResourceMgr :=
  if (m.bank p dir).slave.getD idx false then none
  else some (m.setBank p dir { m.bank p dir with slave := (m.bank p dir).slave.set idx true })

/-- `RoutingTile::allocate` for `IOType::Input`: a master port, unless it is used. -/
def allocateInput (idx : ℕ) (dir : PortDirection) : Option ResourceMgr :=
  if (m.bank p dir).master.getD idx false then none
  else some (m.setBank p dir { m.bank p dir with master := (m.bank p dir).master.set idx true })

/-- A link that has been taken: the port index, and the direction at either end. -/
structure Link where
  port : ℕ
  dirAtoB : PortDirection
  dirBtoA : PortDirection

/-- `occupyLink`. -/
def occupyLink (a b : Point) : Option (ResourceMgr × Link) :=
  (linkAvailable m a b).bind fun idx =>
    (getDir a b).bind fun dir =>
      (allocateOutput m a idx dir).bind fun m' =>
        (allocateInput m' b idx (opposite dir)).map fun m'' => (m'', ⟨idx, dir, opposite dir⟩)

theorem occupyLink_dirs {m m' : ResourceMgr} {l : Link} (h : occupyLink m a b = some (m', l)) :
    getDir a b = some l.dirAtoB ∧ l.dirBtoA = opposite l.dirAtoB := by
  obtain ⟨idx, _, h⟩ := bind_eq_some_iff.1 h
  obtain ⟨dir, hdir, h⟩ := bind_eq_some_iff.1 h
  obtain ⟨m1, _, h⟩ := bind_eq_some_iff.1 h
  obtain ⟨m2, _, heq⟩ := map_eq_some_iff.1 h
  obtain ⟨_, rfl⟩ := Prod.mk.inj heq
  exact ⟨hdir, rfl⟩

end AieHlc.Route
