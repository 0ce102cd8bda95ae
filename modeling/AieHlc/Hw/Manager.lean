import AieHlc.Hw.DataIO

/-!
# Reserving the ports of the control plane

`reserveControlPlaneResources` sets aside, before any data flow is routed, the packet ids, shim
channels and stream ports the control plane uses: ports 0 to the east and west on every core tile,
the two vertical ports along the spine column, and on request a row of ports along the shim tiles.
Data flows then take their ports through `occupyLink`, `occupyport` and `allocate`.

* `Manager`: what of the `ResourceMgr` these functions read and write.
* `reserveAll`: reservations one after the other; a conflict ends them.
* `PortCall`: a call for a data flow; `Banks.call`: the ports it hands out.
-/

namespace AieHlc.Hw

open AieHlc.Route

def kControlPlaneOwner : ℤ := -2

def RT_RES_VFWD_PORT : ℕ := 4
def RT_RES_VRET_PORT : ℕ := 3
def RT_RES_SHIMROW_CH : ℕ := 1
def RT_RES_SHIMROW_PORT : ℕ := 0

def kMaxPktId : ℕ := 32

/-- `__Runtime_res_reserved_pktid_mask`: the ids of the reserved slots, the same for every generation. -/
def reservedPktIds : List ℕ := [0, 1, 2, 3, 0x10]

inductive TileType where
  | core
  | shim
  | mem
  | nocShim
  | unknown
  deriving DecidableEq, Repr

structure PktIdSlot where
  used : Bool := false
  ownerId : ℤ := -1
  deriving DecidableEq, Repr

/-- Where the control plane sits; a negative column leaves the choice to the manager. -/
structure ControlShimPlacement where
  col : ℤ := -1
  mm2sCh : ℕ := 0
  s2mmCh : ℕ := 0
  exclusive : Bool := false
  shimRow : Bool := false
  deriving DecidableEq, Repr

/-- A bank: its tile, its direction, master or slave. -/
structure BankId where
  tile : Point
  dir : PortDirection
  role : PortRole
  deriving DecidableEq, Repr

/-- The banks of all tiles; no tile has a bank towards its control port. -/
structure Banks where
  bank : BankId → PortBank
  noControl : ∀ p role, (bank ⟨p, .control, role⟩).ports = []

/-- What the reservation and the calls for data flows read and write. -/
structure Manager where
  rows : ℕ
  cols : ℕ
  tileType : ℕ → TileType
  partitionStartCol : ℤ := -1
  partitionEndCol : ℤ := -1
  partitionStartRow : ℤ := -1
  partitionEndRow : ℤ := -1
  ctrlPlacement : ControlShimPlacement := {}
  controlPlaneReserved : Bool := false
  pktIdPool : List PktIdSlot
  shims : List ShimTile
  banks : Banks

variable (B : Banks)

namespace Banks

def mark (id : BankId) (i : ℕ) (owner : ℤ) : Banks where
  bank := Function.update B.bank id ((B.bank id).mark i owner)
  noControl := by
    intro p role
    by_cases h : (⟨p, .control, role⟩ : BankId) = id
    · subst h
      apply List.eq_nil_of_length_eq_zero
      rw [Function.update_self, PortBank.length_mark, B.noControl]
      rfl
    · rw [Function.update_of_ne h]
      exact B.noControl p role

/-- `reservePortNumber` on one bank, by the control plane. -/
def reserve (r : BankId × ℕ) : Option Banks :=
  match (B.bank r.1).findNumber r.2 with
  | none => some B
  | some i => if (B.bank r.1).OwnedByOther i kControlPlaneOwner then none
    else some (B.mark r.1 i kControlPlaneOwner)

/-- Reservations one after the other; the first conflict throws. -/
def reserveAll : List (BankId × ℕ) → Banks → Option Banks
  | [], B => some B
  | r :: rest, B => (B.reserve r).bind (reserveAll rest)

end Banks

namespace Manager

variable (m : Manager)

def hasPartition : Bool := decide (m.partitionStartCol ≥ 0)

def isColInPartition (c : ℤ) : Bool :=
  !m.hasPartition || (decide (c ≥ m.partitionStartCol) && decide (c ≤ m.partitionEndCol))

def isRowInPartition (r : ℤ) : Bool :=
  !m.hasPartition || decide (m.partitionStartRow < 0) ||
    (decide (r ≥ m.partitionStartRow) && decide (r ≤ m.partitionEndRow))

def isTileInPartition (p : Point) : Bool := m.isColInPartition p.c && m.isRowInPartition p.r

def spineCol : ℤ :=
  if m.ctrlPlacement.col ≥ 0 then m.ctrlPlacement.col else if m.hasPartition then m.partitionStartCol else 0

/-- Packet ids; no value when one is in use. -/
def reservePktIds (pool : List PktIdSlot) : Option (List PktIdSlot) :=
  (List.range kMaxPktId).foldlM (fun pool i =>
    if i ∈ reservedPktIds then
      if pool[i]?.any fun slot => slot.used && decide (slot.ownerId ≠ kControlPlaneOwner) then none
      else some (pool.set i ⟨true, kControlPlaneOwner⟩)
    else some pool) pool

/-- Both directions of the spine's shim tile. -/
def reserveChannels (mm2sCh s2mmCh : ℕ) : Option Manager :=
  (m.shims.find? fun t => t.col = m.spineCol).bind fun t =>
    (t.allocate .mm2s mm2sCh kControlPlaneOwner).bind fun r =>
      (r.2.allocate .s2mm s2mmCh kControlPlaneOwner).map fun r' =>
        { m with shims := m.shims.map fun s => if s.col = m.spineCol then r'.2 else s }

/-- Port 0 to the west and east of every core tile of the partition. -/
def corePorts : List (BankId × ℕ) :=
  (List.range m.rows).flatMap fun row : ℕ => (List.range m.cols).flatMap fun col : ℕ =>
    if m.isTileInPartition ⟨row, col⟩ = true ∧ m.tileType row = .core then
      [PortDirection.west, .east].flatMap fun d => [PortRole.master, .slave].map fun r =>
        (⟨⟨row, col⟩, d, r⟩, 0)
    else []

/-- The number of the port that belongs to a channel of the shim tile. -/
def southPort (col : ℤ) (role : PortRole) (ch : ℕ) : ℕ :=
  (m.banks.bank ⟨⟨0, col⟩, .south, role⟩).getPortnumFromPortIdx ch

/-- `reserveControlSpinePorts`. -/
def spinePorts : List (BankId × ℕ) :=
  (List.range m.rows).flatMap fun row : ℕ =>
    let t : Point := ⟨row, m.spineCol⟩
    if m.isTileInPartition t then
      [(⟨t, .north, .master⟩, RT_RES_VFWD_PORT), (⟨t, .north, .slave⟩, RT_RES_VRET_PORT)] ++
        if row ≠ 0 then [(⟨t, .south, .slave⟩, RT_RES_VFWD_PORT), (⟨t, .south, .master⟩, RT_RES_VRET_PORT)]
        else if m.ctrlPlacement.exclusive then
          [(⟨t, .south, .master⟩, m.southPort m.spineCol .master m.ctrlPlacement.mm2sCh),
            (⟨t, .south, .slave⟩, m.southPort m.spineCol .slave m.ctrlPlacement.s2mmCh)]
        else []
    else []

/-- The ports of `reserveShimRowControl`. -/
def shimRowPorts : List (BankId × ℕ) :=
  let spine : Point := ⟨0, m.spineCol⟩
  (if m.isTileInPartition spine then
    [(⟨spine, .south, .master⟩, m.southPort m.spineCol .master RT_RES_SHIMROW_CH),
      (⟨spine, .south, .slave⟩, m.southPort m.spineCol .slave RT_RES_SHIMROW_CH),
      (⟨spine, .east, .master⟩, RT_RES_SHIMROW_PORT), (⟨spine, .east, .slave⟩, RT_RES_SHIMROW_PORT)]
  else []) ++
  (List.range m.cols).flatMap fun col : ℕ =>
    if (col : ℤ) ≥ m.spineCol + 1 ∧ m.isTileInPartition ⟨0, col⟩ = true then
      [PortDirection.west, .east].flatMap fun d =>
        [PortRole.master, .slave].map fun r => (⟨⟨0, col⟩, d, r⟩, RT_RES_SHIMROW_PORT)
    else []

/-- The channels of a placement that shares them with no data flow. -/
def reserveSpineChannels : Option Manager :=
  if m.ctrlPlacement.exclusive then m.reserveChannels m.ctrlPlacement.mm2sCh m.ctrlPlacement.s2mmCh
    else some m

def reservePorts (l : List (BankId × ℕ)) : Option Manager :=
  (m.banks.reserveAll l).map fun B => { m with banks := B }

/-- `reserveShimRowControl`, where it was asked for. -/
def reserveShimRowControl : Option Manager :=
  if m.ctrlPlacement.exclusive && m.ctrlPlacement.shimRow then
    (m.reserveChannels RT_RES_SHIMROW_CH RT_RES_SHIMROW_CH).bind fun m' => m'.reservePorts m.shimRowPorts
  else some m

/-- `reserveControlPlaneResources`; no value where it throws. A second call does nothing. -/
def reserveControlPlaneResources : Option Manager :=
  if m.controlPlaneReserved then some m
  else do
    let pool ← reservePktIds m.pktIdPool
    let m₁ ← reserveSpineChannels { m with pktIdPool := pool }
    let m₂ ← m₁.reservePorts m.corePorts
    let m₃ ← m₂.reservePorts m.spinePorts
    let m₄ ← m₃.reserveShimRowControl
    some { m₄ with controlPlaneReserved := true }

end Manager

/-! ## Calls for data flows -/

namespace Banks

/-- The four banks at the ends of a link from `a` to `b`: the two it is booked in, and the two that
face them. -/
def linkBanks (a b : Point) (dir : PortDirection) : List BankId :=
  [⟨a, dir, .slave⟩, ⟨b, opposite dir, .master⟩, ⟨a, dir, .master⟩, ⟨b, opposite dir, .slave⟩]

def unused (ch : ℕ) (id : BankId) : Bool := !(B.bank id).ports[ch]?.any fun slot => slot.used

/-- `linkAvailable`; there is no direction, and it throws, when the points are not neighbours. -/
def linkAvailable (a b : Point) : Option ℕ :=
  (getDir a b).bind fun dir =>
    (List.range (min (B.bank ⟨a, dir, .slave⟩).ports.length
      (B.bank ⟨b, opposite dir, .master⟩).ports.length)).find?
      fun ch => (linkBanks a b dir).all (B.unused ch)

end Banks

/-- A call that takes ports for a data flow. -/
inductive PortCall where
  | occupyLink (a b : Point) (ioId : ℤ)
  | occupyport (io : IOType) (tile : Point) (dir : PortDirection) (ioId : ℤ)
  | allocate (io : IOType) (tile : Point) (portidx : ℕ) (dir : PortDirection) (ioId : ℤ)
  deriving DecidableEq, Repr

def PortCall.tiles : PortCall → List Point
  | .occupyLink a b _ => [a, b]
  | .occupyport _ tile _ _ => [tile]
  | .allocate _ tile _ _ _ => [tile]

/-- The ports a call hands out, by bank and index, and the banks afterwards. A link is booked as a
slave port at one end and a master port at the other, and it is used as the ports that face them. -/
def Banks.call : PortCall → List (BankId × ℕ) × Banks
  | .occupyLink a b ioId =>
    match getDir a b, B.linkAvailable a b with
    | some dir, some ch =>
      (((Banks.linkBanks a b dir).filter fun id => ch < (B.bank id).ports.length).map fun id => (id, ch),
        (B.mark ⟨a, dir, .slave⟩ ch ioId).mark ⟨b, opposite dir, .master⟩ ch ioId)
    | _, _ => ([], B)
  | .occupyport io tile dir ioId =>
    match (B.bank ⟨tile, dir, io.role⟩).occupyport ioId with
    | some (i, _) => ([(⟨tile, dir, io.role⟩, i)], B.mark ⟨tile, dir, io.role⟩ i ioId)
    | none => ([], B)
  | .allocate io tile portidx dir ioId =>
    match (B.bank ⟨tile, dir, io.role⟩).allocate portidx ioId with
    | some _ => ([(⟨tile, dir, io.role⟩, portidx)], B.mark ⟨tile, dir, io.role⟩ portidx ioId)
    | none => ([], B)

/-- All the ports a sequence of calls hands out, with the numbers the hardware gives them. -/
def Banks.calls : List PortCall → Banks → List (BankId × ℕ)
  | [], _ => []
  | c :: rest, B =>
    ((B.call c).1.map fun k => (k.1, (B.bank k.1).getPortnumFromPortIdx k.2)) ++ Banks.calls rest (B.call c).2

end AieHlc.Hw
