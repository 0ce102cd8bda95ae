import AieHlc.Autotile.Fit
import Mathlib.Data.Fintype.Basic
import Mathlib.Data.List.Sort

/-!
# The block trace of a kernel

The kernel body runs once per core of the mesh and records every block it loads or
stores. `fitPort` reads one port's events into the affine form of a DMA program, and
`checkPort` compares that form with what the derived DMA delivers.
The events are the harness's; how it compiles and runs the body is not modelled.

* `seqAt`, `seqCores`: the events of a port by core, cores in ascending order.
* `affine`, `pickRounds`: the search for the two round counts, inner-heavy first.
* `fitPort`, `checkPort`: the checks and their messages.
-/

namespace AieHlc.Autotile

/-- What an event records: a load, a store, an error of the harness, a release. -/
inductive EventKind
  | L | S | E | R
deriving DecidableEq, Repr

structure Event where
  kind : EventKind
  p0 : ℤ := 0
  p1 : ℤ := 0
  n : ℤ := 0
  /-- dimensions of the block's shape -/
  rs : ℕ := 0
  port : String := ""
  off : Fin 4 → ℤ := fun _ => 0
  shape : Fin 4 → ℤ := fun _ => 0
deriving DecidableEq

instance : Inhabited Event := ⟨{ kind := .R }⟩

def entry (v : Fin 4 → ℤ) (k : ℕ) : ℤ := if h : k < 4 then v ⟨k, h⟩ else 0

def firstDims (v : Fin 4 → ℤ) (rank : ℕ) : List ℤ := (List.range rank).map (entry v)

def Event.core (e : Event) : ℤ × ℤ := (e.p0, e.p1)

def Event.uses (e : Event) (port : TracePort) : Prop := (e.kind = .L ∨ e.kind = .S) ∧ e.port = port.var

instance (e : Event) (port : TracePort) : Decidable (e.uses port) := by
  unfold Event.uses
  infer_instance

/-- Cores in the order of a map keyed by them. -/
def CoreLe (a b : ℤ × ℤ) : Prop := a.1 < b.1 ∨ a.1 = b.1 ∧ a.2 ≤ b.2

instance : DecidableRel CoreLe := fun a b => by
  unfold CoreLe
  infer_instance

section Seq

variable (port : TracePort) (events : List Event) (core : ℤ × ℤ)

/-- The blocks a core takes of the port, in order. -/
def seqAt : List Event := events.filter fun e => e.uses port ∧ e.core = core

/-- The cores that take a block of the port, ascending. -/
def seqCores : List (ℤ × ℤ) :=
  ((events.filter fun e => e.uses port).map Event.core).dedup.insertionSort CoreLe

/-- Block `r` of a core. -/
def blockAt (r : ℕ) : Event := (seqAt port events core).getD r default

/-- Offset of block `r` of a core in dimension `k`. -/
def offAt (r k : ℕ) : ℤ := entry (blockAt port events core r).off k

/-- Blocks of core `(0, 0)`. -/
def blockCount : ℕ := (seqAt port events (0, 0)).length

def blockRank : ℕ := (blockAt port events (0, 0) 0).rs

/-- The first core or block that is not like the first one of core `(0, 0)`. -/
def shapeError : Option String :=
  let first := blockAt port events (0, 0) 0
  (seqCores port events).findSome? fun core =>
    if (seqAt port events core).length ≠ blockCount port events then
      some (port.var ++ ": core (" ++ toString core.1 ++ "," ++ toString core.2 ++ ") takes " ++
        toString (seqAt port events core).length ++ " blocks, core (0,0) takes " ++
        toString (blockCount port events) ++ " (the per-core block count must be the same)")
    else
      (seqAt port events core).findSome? fun e =>
        if e.shape ≠ first.shape then
          some (port.var ++ ": block " ++ toString e.n ++ " has shape " ++
            vecStr (firstDims e.shape (blockRank port events)) ++ ", block 0 has " ++
            vecStr (firstDims first.shape (blockRank port events)) ++
            " (a DMA window has one fixed size)")
        else none

/-- Step of the inner round, read off core `(0, 0)`. -/
def innerStep (rj k : ℕ) : ℤ :=
  if rj > 1 then offAt port events (0, 0) 1 k - offAt port events (0, 0) 0 k else 0

/-- Step of the outer round, read off core `(0, 0)`. -/
def outerStep (rj k : ℕ) : ℤ :=
  if blockCount port events / rj > 1 then offAt port events (0, 0) rj k - offAt port events (0, 0) 0 k
  else 0

/-- Every core's blocks follow the two steps, with `rj` inner rounds. -/
def affine (rj : ℕ) : Prop :=
  ∀ core ∈ seqCores port events, ∀ r < blockCount port events, ∀ k < blockRank port events,
    offAt port events core r k =
      offAt port events core 0 k + ((r / rj : ℕ) : ℤ) * outerStep port events rj k +
        ((r % rj : ℕ) : ℤ) * innerStep port events rj k

instance (rj : ℕ) : Decidable (affine port events rj) := by
  unfold affine
  infer_instance

/-- The inner round count: the largest factor of the block count that fits. -/
def pickRounds : Option ℕ :=
  ((List.range (blockCount port events)).map (blockCount port events - ·)).find? fun rj =>
    blockCount port events % rj = 0 ∧ affine port events rj

/-- Offset of the first blocks per mesh row, read off core `(1, 0)`. -/
def rowBase (rows : ℤ) (k : ℕ) : ℤ :=
  if rows > 1 then offAt port events (1, 0) 0 k - offAt port events (0, 0) 0 k else 0

/-- Offset of the first blocks per mesh column, read off core `(0, 1)`. -/
def colBase (cols : ℤ) (k : ℕ) : ℤ :=
  if cols > 1 then offAt port events (0, 1) 0 k - offAt port events (0, 0) 0 k else 0

/-- The first core whose first block is not affine in the core's position. -/
def baseError (rows cols : ℤ) : Option String :=
  (seqCores port events).findSome? fun core =>
    (List.range (blockRank port events)).findSome? fun k =>
      if offAt port events core 0 k ≠
          offAt port events (0, 0) 0 k + core.1 * rowBase port events rows k +
            core.2 * colBase port events cols k then
        some (port.var ++ ": the first block of core (" ++ toString core.1 ++ "," ++ toString core.2 ++
          ") is " ++ vecStr (firstDims (blockAt port events core 0).off (blockRank port events)) ++
          ", not affine in program_id like the other cores")
      else none

/-- The fit of a port once the inner round count is found. -/
def fitWith (rows cols : ℤ) (rj : ℕ) : PortFit :=
  let dims (f : ℕ → ℤ) : List ℤ := (List.range (blockRank port events)).map f
  { rank := blockRank port events
    shape := firstDims (blockAt port events (0, 0) 0).shape (blockRank port events)
    roundsI := ((blockCount port events / rj : ℕ) : ℤ)
    roundsJ := rj
    stepI := dims (outerStep port events rj)
    stepJ := dims (innerStep port events rj)
    baseP0 := dims (rowBase port events rows)
    baseP1 := dims (colBase port events cols) }

/-- The offset core `(0, 0)` starts at. -/
def fitOrigin : List ℤ := firstDims (blockAt port events (0, 0) 0).off (blockRank port events)

def notAffine : String :=
  port.var ++ ": the block offsets of a core are not an affine sequence (base + i*step_i + j*step_j); " ++
    "core (0,0) visits " ++ vecStr (fitOrigin port events) ++ ", " ++
    (if blockCount port events > 1 then
      vecStr (firstDims (blockAt port events (0, 0) 1).off (blockRank port events)) else "") ++ " ..."

/-- The affine form of a port's blocks and where they start. -/
def fitPort (rows cols : ℤ) : Except String (PortFit × List ℤ) :=
  if seqCores port events = [] then
    .error (port.var ++ " (" ++ port.role.name ++ ") is never " ++
      (if port.output then "stored (aie::store_buffer)" else "loaded (aie::load_buffer)"))
  else if ((seqCores port events).length : ℤ) ≠ rows * cols then
    .error (port.var ++ ": only " ++ toString (seqCores port events).length ++ " of " ++
      toString (rows * cols) ++ " cores use this port (every core runs the same DMA program)")
  else
    match shapeError port events with
    | some err => .error err
    | none =>
      match pickRounds port events with
      | none => .error (notAffine port events)
      | some rj =>
        -- the source tells a failed search by an empty step, as a block without dimensions has
        if blockRank port events = 0 then .error (notAffine port events)
        else
          match baseError port events rows cols with
          | some err => .error err
          | none => .ok (fitWith port events rows cols rj, fitOrigin port events)

end Seq

/-- The DMA tiles a tensor from its origin. -/
def originErrors (port : TracePort) (origin : List ℤ) : List String :=
  complain (∃ v ∈ origin, v ≠ 0)
    (port.var ++ ": core (0,0) starts at " ++ vecStr origin ++
      ", not at the tensor origin (the DMA tiles a tensor from its origin)")

/-- What fitting a port, the origin check and the comparison report for a port. -/
def checkPort (port : TracePort) (events : List Event) (rows cols : ℤ) (c : Conv2dSpec) (d : Derived)
    (why : String) : List String :=
  match fitPort port events rows cols with
  | .error err => [err]
  | .ok (f, origin) => originErrors port origin ++ compareFit port f (expectedFit port.role c d) why

end AieHlc.Autotile
