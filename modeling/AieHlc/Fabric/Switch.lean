import AieHlc.Fabric.Net
import Mathlib.Logic.Function.Basic

/-!
# Stream switches

A tile's stream switch has slave ports (in) and master ports (out). A slave in
packet mode looks a packet's id up in its slots and takes the matching one of
lowest index; the slot names an arbiter and a select bit, and the masters of
that arbiter that enable the bit each copy the packet. A circuit master copies
whatever enters its slave. Configuration writes overwrite: the last write to a
port (or to a slot of a port) wins.

* `Switch`: the configuration of one tile; `Switch.write`, `Switch.writes`.
* `Switch.writes_master`, `Switch.writes_slave`, `Switch.writes_slots`: a port holds
  the last value written to it.
* `Switch.egress`: the masters that copy a packet entering a slave.
* `meshNext`: the forwarding network of a mesh of switches and its links.
-/

namespace AieHlc.Fabric

open Option Function List

/-- A packet slot of a slave port. -/
structure Slot where
  pkt : ℕ
  mask : ℕ
  msel : ℕ
  arb : ℕ
  deriving DecidableEq, Repr

/-- A slot takes the ids that agree with its packet id under its mask. -/
def Slot.Takes (s : Slot) (id : ℕ) : Prop := id &&& s.mask = s.pkt &&& s.mask

instance (s : Slot) (id : ℕ) : Decidable (s.Takes id) := inferInstanceAs (Decidable (_ = _))

/-- What a slave port is configured for. -/
inductive SlaveMode where
  | off
  | packet
  | circuit
  deriving DecidableEq, Repr

/-- What a master port is configured for. -/
inductive Master (Port : Type*) where
  | off
  | packet (arb mselen : ℕ)
  | circuit (src : Port)
  deriving DecidableEq, Repr

/-- One configuration write to a switch. -/
inductive Write (Port : Type*) where
  | slot (p : Port) (i : ℕ) (s : Slot)
  | slaveEn (p : Port)
  | masterEn (p : Port) (arb mselen : ℕ)
  | circuit (src dst : Port)
  deriving DecidableEq, Repr

/-- The configuration of one switch. -/
@[ext] structure Switch (Port : Type*) where
  slots : Port → ℕ → Option Slot
  slave : Port → SlaveMode
  master : Port → Master Port

variable {Port Tile : Type*} [DecidableEq Port]

def Switch.reset : Switch Port := ⟨fun _ _ => none, fun _ => .off, fun _ => .off⟩

/-- One write; a circuit write claims both of its ports. -/
def Switch.write (w : Switch Port) : Write Port → Switch Port
  | .slot p i s => { w with slots := update w.slots p (update (w.slots p) i (some s)) }
  | .slaveEn p => { w with slave := update w.slave p .packet }
  | .masterEn p arb mselen => { w with master := update w.master p (.packet arb mselen) }
  | .circuit src dst =>
    { w with slave := update w.slave src .circuit,
             master := update w.master dst (.circuit src) }

variable (w : Switch Port)

def Switch.writes (l : List (Write Port)) : Switch Port := l.foldl Switch.write w

@[simp] theorem Switch.writes_nil : w.writes [] = w := rfl

@[simp] theorem Switch.writes_cons (a : Write Port) (l : List (Write Port)) :
    w.writes (a :: l) = (w.write a).writes l := rfl

theorem Switch.writes_append (l l' : List (Write Port)) :
    w.writes (l ++ l') = (w.writes l).writes l' := foldl_append

/-! ### The last write wins -/

/-- The last value that `f` finds along a list. -/
def lastSome {ω τ : Type*} (f : ω → Option τ) (l : List ω) : Option τ :=
  l.foldl (fun acc x => (f x).or acc) none

section LastSome

variable {ω τ : Type*} (f : ω → Option τ)

theorem foldl_or (l : List ω) : ∀ acc : Option τ,
    l.foldl (fun acc x => (f x).or acc) acc = (lastSome f l).or acc := by
  unfold lastSome
  induction l with
  | nil => intro acc; simp
  | cons x l ih =>
    intro acc
    rw [foldl_cons, foldl_cons, ih, ih ((f x).or none), or_none, Option.or_assoc]

@[simp] theorem lastSome_nil : lastSome f [] = none := rfl

@[simp] theorem lastSome_append (l l' : List ω) :
    lastSome f (l ++ l') = (lastSome f l').or (lastSome f l) := by
  unfold lastSome
  rw [foldl_append, foldl_or f l']
  rfl

@[simp] theorem lastSome_cons (x : ω) (l : List ω) : lastSome f (x :: l) = (lastSome f l).or (f x) := by
  unfold lastSome
  rw [foldl_cons, foldl_or f l, or_none]
  rfl

@[simp] theorem lastSome_ite (c : Prop) [Decidable c] (l l' : List ω) :
    lastSome f (if c then l else l') = if c then lastSome f l else lastSome f l' := by
  split <;> rfl

end LastSome

/-- What a write sets a master port to. -/
def Write.master? (m : Port) : Write Port → Option (Master Port)
  | .masterEn p arb mselen => if m = p then some (.packet arb mselen) else none
  | .circuit src dst => if m = dst then some (.circuit src) else none
  | _ => none

/-- What a write sets the mode of a slave port to. -/
def Write.slave? (q : Port) : Write Port → Option SlaveMode
  | .slaveEn p => if q = p then some .packet else none
  | .circuit src _ => if q = src then some .circuit else none
  | _ => none

/-- What a write sets a slot of a slave port to. -/
def Write.slot? (q : Port) (i : ℕ) : Write Port → Option Slot
  | .slot p j s => if q = p ∧ i = j then some s else none
  | _ => none

/-- The last write to a register is the one that counts; so also for slaves and slots. -/
theorem Switch.writes_master (m : Port) (l : List (Write Port)) : ∀ w : Switch Port,
    (w.writes l).master m = (lastSome (Write.master? m) l).getD (w.master m) := by
  induction l with
  | nil => intro w; rfl
  | cons a l ih =>
    intro w
    rw [Switch.writes_cons, ih, lastSome_cons, getD_or]
    congr 1
    cases a with
    | slot => rfl
    | slaveEn => rfl
    | masterEn p => by_cases h : m = p <;> simp [Switch.write, Write.master?, h]
    | circuit src dst => by_cases h : m = dst <;> simp [Switch.write, Write.master?, h]

theorem Switch.writes_slave (q : Port) (l : List (Write Port)) : ∀ w : Switch Port,
    (w.writes l).slave q = (lastSome (Write.slave? q) l).getD (w.slave q) := by
  induction l with
  | nil => intro w; rfl
  | cons a l ih =>
    intro w
    rw [Switch.writes_cons, ih, lastSome_cons, getD_or]
    congr 1
    cases a with
    | slot => rfl
    | masterEn => rfl
    | slaveEn p => by_cases h : q = p <;> simp [Switch.write, Write.slave?, h]
    | circuit src dst => by_cases h : q = src <;> simp [Switch.write, Write.slave?, h]

theorem Switch.writes_slots (q : Port) (i : ℕ) (l : List (Write Port)) : ∀ w : Switch Port,
    (w.writes l).slots q i = (lastSome (Write.slot? q i) l).or (w.slots q i) := by
  induction l with
  | nil => intro w; rfl
  | cons a l ih =>
    intro w
    rw [Switch.writes_cons, ih, lastSome_cons, Option.or_assoc]
    congr 1
    cases a with
    | masterEn => rfl
    | slaveEn => rfl
    | circuit => rfl
    | slot p j s =>
      by_cases hp : q = p
      · subst hp
        by_cases hi : i = j <;> simp [Switch.write, Write.slot?, hi]
      · simp [Switch.write, Write.slot?, hp]

/-- The slot of lowest index, among the first `n` of a slave, that takes the id. -/
def Switch.lookup (n : ℕ) (p : Port) (id : ℕ) : Option Slot :=
  (List.range n).findSome? fun i => (w.slots p i).filter fun s => s.Takes id

omit [DecidableEq Port] in
/-- **Lookup takes the matching slot of lowest index.** -/
theorem Switch.lookup_eq {w : Switch Port} {p : Port} {id i : ℕ} {s : Slot} (hs : w.slots p i = some s)
    (ht : s.Takes id) (hmin : ∀ j < i, ∀ s', w.slots p j = some s' → ¬s'.Takes id) :
    ∀ n, i < n → w.lookup n p id = some s := by
  have hlow : ∀ m ≤ i, w.lookup m p id = none := by
    intro m hm
    unfold Switch.lookup
    rw [findSome?_eq_none_iff]
    intro j hj
    rw [mem_range] at hj
    rw [filter_eq_none_iff]
    intro s' hs'
    simpa using hmin j (by omega) s' hs'
  intro n
  induction n with
  | zero => intro h; omega
  | succ n ih =>
    intro hn
    have hsplit : w.lookup (n + 1) p id =
        (w.lookup n p id).or ((w.slots p n).filter fun s => s.Takes id) := by
      unfold Switch.lookup
      rw [range_succ, findSome?_append, findSome?_singleton]
    rcases lt_or_ge i n with h | h
    · rw [hsplit, ih h]; rfl
    · obtain rfl : i = n := by omega
      rw [hsplit, hlow i le_rfl, hs]
      simp [Option.filter, ht]

/-- Whether master `m` copies a packet that enters slave `p`. -/
def Switch.forwards (n : ℕ) (id : ℕ) (p m : Port) : Bool :=
  match w.master m with
  | .off => false
  | .circuit src => src = p && w.slave p ≠ .off
  | .packet arb mselen =>
    w.slave p = .packet &&
      match w.lookup n p id with
      | none => false
      | some s => s.arb = arb && mselen.testBit s.msel

/-- The masters, among `ports`, that copy a packet that enters slave `p`. -/
def Switch.egress (n : ℕ) (ports : List Port) (id : ℕ) (p : Port) : List Port :=
  ports.filter (w.forwards n id p)

/-- A packet slave with a matching slot: the masters are those of the slot's arbiter
that enable its select bit. -/
theorem Switch.egress_packet {w : Switch Port} {n : ℕ} {ports : List Port} {id : ℕ} {p : Port} {s : Slot}
    (hp : w.slave p = .packet) (hs : w.lookup n p id = some s) :
    w.egress n ports id p = ports.filter fun m =>
      match w.master m with
      | .off => false
      | .circuit src => src = p
      | .packet arb mselen => s.arb = arb && mselen.testBit s.msel := by
  unfold Switch.egress Switch.forwards
  rw [hs, hp]
  simp

/-- The hop a master makes: `link` says which slave it drives, or that it leaves the
mesh there. -/
def linkHop (link : Tile → Port → Option (Tile × Port)) (t : Tile) (m : Port) :
    Hop (Tile × Port) (Tile × Port) :=
  match link t m with
  | some q => .fwd q
  | none => .out (t, m)

/-- The forwarding network of a mesh: a packet at a slave of a tile is copied by the
tile's switch, each copy going where its master's link goes. -/
def meshNext (n : ℕ) (ports : List Port) (link : Tile → Port → Option (Tile × Port))
    (cfg : Tile → Switch Port) (id : ℕ) (q : Tile × Port) : List (Hop (Tile × Port) (Tile × Port)) :=
  ((cfg q.1).egress n ports id q.2).map (linkHop link q.1)

end AieHlc.Fabric
