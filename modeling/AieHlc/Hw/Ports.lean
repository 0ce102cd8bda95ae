import AieHlc.Alloc.Slots
import AieHlc.Route.Grid

/-!
# Stream ports of a tile

A tile has, for each direction, a bank of master and a bank of slave ports (`RoutingTile`). A port
is known by its index in the bank or by the number the hardware gives it; the banks of a shim tile
towards the memory hold only a few of the hardware's ports.

* `PortBank`: a bank whose ports have different numbers.
* `allocate`, `occupyport`: a port by its index, and the first free one.
* `findNumber`: a port by its number.
* `indicesFree`: the free ports in order; `occupyport_cases`: the first of them is taken.
-/

namespace AieHlc.Hw

open List AieHlc.Alloc

inductive PortRole where
  | master
  | slave
  deriving DecidableEq, Repr

inductive IOType where
  | input
  | output
  | tileDMA
  deriving DecidableEq, Repr

/-- A port; without a number of its own it has that of its index. -/
structure PortSlot where
  used : Bool := false
  invalid : Bool := false
  ioId : ℤ := -1
  portNum : Option ℕ := none
  deriving DecidableEq, Repr

def numbers (ports : List PortSlot) : List ℕ := ports.mapIdx fun i slot => slot.portNum.getD i

/-- A bank of ports. -/
structure PortBank where
  ports : List PortSlot
  nodup : (numbers ports).Nodup

/-- The bank an input or an output takes its ports from. -/
def IOType.role : IOType → PortRole
  | .input => .master
  | _ => .slave

namespace PortBank

variable {b b' : PortBank} {i j : ℕ} {ioId : ℤ}

/-- `getPortnumFromPortIdx`. -/
def getPortnumFromPortIdx (b : PortBank) (portidx : ℕ) : ℕ :=
  match b.ports[portidx]? with
  | some slot => slot.portNum.getD portidx
  | none => portidx

def Free (b : PortBank) (i : ℕ) : Prop := ∃ slot, b.ports[i]? = some slot ∧ slot.used = false

instance (b : PortBank) (i : ℕ) : Decidable (b.Free i) :=
  decidable_of_iff (∃ slot ∈ b.ports[i]?, slot.used = false) (by simp only [Free, Option.mem_def])

theorem numbers_modify (ports : List PortSlot) (i : ℕ) (owner : ℤ) :
    numbers (ports.modify i fun slot =>
      { slot with used := true, invalid := false, ioId := owner }) = numbers ports := by
  apply ext_getElem?
  intro j
  simp only [numbers, getElem?_mapIdx, getElem?_modify]
  cases ports[j]? with
  | none => rfl
  | some slot => by_cases hij : i = j <;> simp [hij]

def mark (b : PortBank) (i : ℕ) (owner : ℤ) : PortBank where
  ports := b.ports.modify i fun slot => { slot with used := true, invalid := false, ioId := owner }
  nodup := by
    rw [numbers_modify]
    exact b.nodup

/-- `allocate`: a port by its index, unless it is used. -/
def allocate (b : PortBank) (portidx : ℕ) (ioId : ℤ) : Option PortBank :=
  if b.Free portidx then some (b.mark portidx ioId) else none

/-- `occupyport`: the first port that can be allocated. -/
def occupyport (b : PortBank) (ioId : ℤ) : Option (ℕ × PortBank) :=
  (b.ports.findIdx? fun slot => !slot.used).map fun i => (i, b.mark i ioId)

/-- The port with a number, for `reservePortNumber`. -/
def findNumber (b : PortBank) (portNum : ℕ) : Option ℕ := (numbers b.ports).findIdx? fun n => n = portNum

/-- The port is used, by another owner. -/
def OwnedByOther (b : PortBank) (i : ℕ) (ownerId : ℤ) : Prop :=
  b.ports[i]?.any (fun slot => slot.used && decide (slot.ioId ≠ ownerId)) = true

instance (b : PortBank) (i : ℕ) (ownerId : ℤ) : Decidable (b.OwnedByOther i ownerId) :=
  inferInstanceAs (Decidable (_ = true))

/-! ## Marking -/

@[simp]
theorem length_mark (b : PortBank) (i : ℕ) (owner : ℤ) : (b.mark i owner).ports.length = b.ports.length :=
  length_modify ..

@[simp]
theorem getPortnumFromPortIdx_mark (b : PortBank) (i j : ℕ) (owner : ℤ) :
    (b.mark i owner).getPortnumFromPortIdx j = b.getPortnumFromPortIdx j := by
  unfold getPortnumFromPortIdx mark
  simp only [getElem?_modify]
  cases b.ports[j]? with
  | none => rfl
  | some slot => by_cases hij : i = j <;> simp [hij]

theorem free_mark {owner : ℤ} : (b.mark i owner).Free j ↔ b.Free j ∧ j ≠ i := by
  unfold Free mark
  simp only [getElem?_modify]
  by_cases hij : i = j
  · subst hij
    cases b.ports[i]? <;> simp
  · simp [hij, Ne.symm hij]

theorem Free.lt (h : b.Free i) : i < b.ports.length := by
  obtain ⟨slot, hslot, -⟩ := h
  exact (List.getElem?_eq_some_iff.1 hslot).1

theorem getElem?_numbers (b : PortBank) (i : ℕ) (h : i < b.ports.length) :
    (numbers b.ports)[i]? = some (b.getPortnumFromPortIdx i) := by
  rw [numbers, getElem?_mapIdx, getPortnumFromPortIdx, getElem?_eq_getElem h]
  rfl

theorem getPortnumFromPortIdx_inj (hi : i < b.ports.length) (hj : j < b.ports.length)
    (h : b.getPortnumFromPortIdx i = b.getPortnumFromPortIdx j) : i = j := by
  have hlt : i < (numbers b.ports).length := by
    rw [numbers, length_mapIdx]
    exact hi
  apply (getElem?_inj hlt b.nodup).1
  rw [b.getElem?_numbers i hi, b.getElem?_numbers j hj, h]

/-! ## The free ports in order -/

def indicesFree (b : PortBank) : List ℕ := positions (fun slot => !slot.used) b.ports

theorem mem_indicesFree : i ∈ b.indicesFree ↔ b.Free i := by
  simp only [indicesFree, mem_positions, Free, Bool.not_eq_true']

theorem nodup_indicesFree (b : PortBank) : b.indicesFree.Nodup := nodup_positions _ _

/-- The first free slot is taken, or there is none. -/
theorem occupyport_cases (b : PortBank) (ioId : ℤ) : (b.occupyport ioId = none ∧ b.indicesFree = []) ∨
    ∃ i, b.occupyport ioId = some (i, b.mark i ioId) ∧ b.indicesFree = i :: (b.mark i ioId).indicesFree := by
  rw [occupyport, findIdx?_eq_head?]
  change (Option.map _ b.indicesFree.head? = none ∧ _) ∨ _
  cases h : b.indicesFree with
  | nil => exact .inl ⟨rfl, rfl⟩
  | cons i rest =>
    refine .inr ⟨i, ?_, ?_⟩
    · change Option.map _ b.indicesFree.head? = _
      rw [h]
      rfl
    · rw [indicesFree, mark, positions_modify_head (fun _ => rfl) h]

end PortBank

end AieHlc.Hw
