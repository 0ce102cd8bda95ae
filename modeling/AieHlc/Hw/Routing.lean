import AieHlc.Hw.Planes

/-!
# The manager as routing sees it

Routing reads of a port only whether it is used. Seen so, a manager and its calls for links are
those the paths are made with.

* `Manager.routing`: the manager, with the use of its ports only.
* `inPartition_routing`, `linkAvailable_routing`: the partition and the free links are the same.
* `occupyLink_routing`: a call for a link takes the one that routing takes.
-/

namespace AieHlc.Hw

open List AieHlc.Route

def PortBank.usedPorts (b : PortBank) : List Bool := b.ports.map PortSlot.used

/-- What is left of a manager when a port is only used or not. -/
def Manager.routing (m : Manager) : ResourceMgr where
  rows := m.rows
  cols := m.cols
  partitionStartCol := m.partitionStartCol
  partitionEndCol := m.partitionEndCol
  partitionStartRow := m.partitionStartRow
  partitionEndRow := m.partitionEndRow
  bank p dir := ⟨(m.banks.bank ⟨p, dir, .master⟩).usedPorts, (m.banks.bank ⟨p, dir, .slave⟩).usedPorts⟩

variable (m : Manager) {a b : Point} {dir : PortDirection} {ch : ℕ}

theorem inPartition_routing (p : Point) : inPartition m.routing p = m.isTileInPartition p := by
  have hset : decide (m.partitionStartCol < 0) = !m.hasPartition := by
    rw [Manager.hasPartition, ← decide_not, decide_eq_decide]
    omega
  unfold inPartition Manager.isTileInPartition Manager.isColInPartition Manager.isRowInPartition
  rw [← hset]
  rfl

theorem getD_usedPorts (id : BankId) (ch : ℕ) :
    (m.banks.bank id).usedPorts.getD ch false = !m.banks.unused ch id := by
  rw [PortBank.usedPorts, getD_eq_getElem?_getD, getElem?_map, Banks.unused, Bool.not_not]
  cases (m.banks.bank id).ports[ch]? <;> rfl

theorem channelFree_routing : channelFree (m.routing.bank a dir) (m.routing.bank b (opposite dir)) ch =
    (Banks.linkBanks a b dir).all (m.banks.unused ch) := by
  simp only [channelFree, Manager.routing, getD_usedPorts, Banks.linkBanks, all_cons, all_nil,
    Bool.and_true, Bool.not_or,
    Bool.not_not, Bool.and_assoc]

theorem linkAvailable_routing : linkAvailable m.routing a b = m.banks.linkAvailable a b := by
  unfold Route.linkAvailable Banks.linkAvailable
  refine congrArg _ (funext fun dir => ?_)
  have hfree : channelFree (m.routing.bank a dir) (m.routing.bank b (opposite dir)) =
      fun ch => (Banks.linkBanks a b dir).all (m.banks.unused ch) := funext fun ch => channelFree_routing m
  dsimp only
  rw [hfree]
  simp only [Manager.routing, PortBank.usedPorts, length_map]

theorem usedPorts_mark (B : PortBank) (i : ℕ) (owner : ℤ) :
    (B.mark i owner).usedPorts = B.usedPorts.set i true := by
  apply ext_getElem?
  intro j
  simp only [PortBank.usedPorts, PortBank.mark, getElem?_map, getElem?_modify, getElem?_set, length_map]
  by_cases hij : i = j
  · subst hij
    cases hslot : B.ports[i]? with
    | none => simp [getElem?_eq_none_iff.1 hslot]
    | some slot => simp [(List.getElem?_eq_some_iff.1 hslot).1]
  · simp [hij]

theorem routing_mark_slave (p : Point) (d : PortDirection) (i : ℕ) (owner : ℤ) :
    ({ m with banks := m.banks.mark ⟨p, d, .slave⟩ i owner } : Manager).routing =
      m.routing.setBank p d { m.routing.bank p d with slave := (m.routing.bank p d).slave.set i true } := by
  refine congrArg (ResourceMgr.mk _ _ _ _ _ _) (funext fun q => funext fun e => ?_)
  by_cases hq : q = p
  · by_cases he : e = d <;> simp [Banks.mark, Manager.routing, usedPorts_mark, hq, he]
  · simp [Banks.mark, Manager.routing, hq]

theorem routing_mark_master (p : Point) (d : PortDirection) (i : ℕ) (owner : ℤ) :
    ({ m with banks := m.banks.mark ⟨p, d, .master⟩ i owner } : Manager).routing =
      m.routing.setBank p d { m.routing.bank p d with master := (m.routing.bank p d).master.set i true } := by
  refine congrArg (ResourceMgr.mk _ _ _ _ _ _) (funext fun q => funext fun e => ?_)
  by_cases hq : q = p
  · by_cases he : e = d <;> simp [Banks.mark, Manager.routing, usedPorts_mark, hq, he]
  · simp [Banks.mark, Manager.routing, hq]

/-- **What routing sees of a call for a link** is what it does itself. -/
theorem occupyLink_routing (hdir : getDir a b = some dir)
    (hch : m.banks.linkAvailable a b = some ch) (ioId : ℤ) :
    occupyLink m.routing a b =
      some (({ m with banks := (m.banks.call (.occupyLink a b ioId)).2 } : Manager).routing,
        ⟨ch, dir, opposite dir⟩) := by
  have hfree : ∀ id ∈ Banks.linkBanks a b dir, (m.banks.bank id).usedPorts.getD ch false = false := by
    intro id hid
    rw [getD_usedPorts, linkAvailable_some hdir hch id hid]
    rfl
  set m₁ : Manager := { m with banks := m.banks.mark ⟨a, dir, .slave⟩ ch ioId } with hm₁
  have hslave : (m.routing.bank a dir).slave.getD ch false = false := hfree _ (by simp [Banks.linkBanks])
  have hmaster : (m₁.routing.bank b (opposite dir)).master.getD ch false = false := by
    have hsame : m₁.banks.bank ⟨b, opposite dir, .master⟩ = m.banks.bank ⟨b, opposite dir, .master⟩ :=
      Function.update_of_ne (by simp) _ _
    exact (congrArg (fun B => B.usedPorts.getD ch false) hsame).trans (hfree _ (by simp [Banks.linkBanks]))
  have hout : allocateOutput m.routing a ch dir = some m₁.routing := by
    rw [allocateOutput, hslave, hm₁, routing_mark_slave]
    rfl
  have hin : allocateInput m₁.routing b ch (opposite dir) =
      some ({ m₁ with banks := m₁.banks.mark ⟨b, opposite dir, .master⟩ ch ioId } : Manager).routing := by
    rw [allocateInput, hmaster, routing_mark_master]
    rfl
  rw [occupyLink, linkAvailable_routing, hch, Option.bind_some, hdir, Option.bind_some, hout,
    Option.bind_some, hin,
    Banks.call, hdir, hch]
  rfl

end AieHlc.Hw
