import AieHlc.Route.Tree

/-!
# Connections of a routed tree

Model of the link loop of `GetSeqPath` (`passdmaphoptoroutinghw.cpp`): the branches of a
tree are followed, a link is taken to every tile that is new, and each tile records where
it receives from and up to two directions it sends to.

* `getSeqPath`: the loop, and the shim port that is set after it.
* `Forwards`: what the recorded data does with a stream.
* `treeLinks`: the links of a tree, from the branches alone.
* `Linked`: what the loop has recorded, kept by every link (`Linked.hop`) and by a change of
  where one point receives from (`Linked.reslave`).
* `Linked.delivers_iff`: **what is recorded delivers exactly if no tile feeds more than two
  points and none but the source receives from nowhere.**
-/

namespace AieHlc.Route

open Function List

/-- `StreamCCTConnection`: the direction and port a tile receives on, and its primary and
secondary directions and ports to send on. -/
structure StreamCCTConnection where
  slaveDir : PortDirection
  slavePort : ℕ
  masterDir : PortDirection
  masterPort : ℕ
  masterDir2 : PortDirection
  masterPort2 : ℕ
  deriving DecidableEq, Repr

def StreamCCTConnection.new : StreamCCTConnection := ⟨.none, 0, .none, 0, .none, 0⟩

/-- What the loop changes: the ports, `orderedPathPoints` and `connectionData`. -/
structure LinkState where
  mgr : ResourceMgr
  points : List Point
  conn : Point → StreamCCTConnection

/-- `addPointToOrderedList`. -/
def addPointToOrderedList (s : LinkState) (p : Point) : LinkState :=
  if p ∈ s.points then s else { s with points := s.points ++ [p] }

/-- A point of round 0 that starts its branch receives from nowhere. -/
def clearSlave (s : LinkState) (p : Point) : LinkState :=
  { s with conn := update s.conn p { s.conn p with slaveDir := .none } }

variable (c : StreamCCTConnection)

/-- The primary direction, or the secondary one if there is a primary. -/
def StreamCCTConnection.setMaster (l : Link) : StreamCCTConnection :=
  if c.masterDir ≠ .none then { c with masterDir2 := l.dirAtoB, masterPort2 := l.port }
  else { c with masterDir := l.dirAtoB, masterPort := l.port }

/-- Where a new tile receives from; it does not send yet. -/
def StreamCCTConnection.setSlave (l : Link) : StreamCCTConnection :=
  { c with slaveDir := l.dirBtoA, slavePort := l.port, masterDir := .none }

/-- What both tiles of a link record. -/
def record (conn : Point → StreamCCTConnection) (cur next : Point) (isNew : Bool) (l : Link) :
    Point → StreamCCTConnection :=
  let conn' := update conn cur ((conn cur).setMaster l)
  if isNew then update conn' next ((conn' next).setSlave l) else conn'

/-- One link of a branch; there is no value where the link cannot be taken. -/
def linkTo (s : LinkState) (cur next : Point) : Option LinkState :=
  if cur ∈ s.points ∧ next ∈ s.points then some s
  else (occupyLink s.mgr cur next).map fun r =>
    { s with mgr := r.1, conn := record s.conn cur next (decide (next ∉ s.points)) r.2 }

/-- The loop over the points of one branch; `clear` at its first point in round 0. -/
def followBranch : Bool → List Point → LinkState → Option LinkState
  | _, [], s => some s
  | clear, p :: rest, s =>
    let s := addPointToOrderedList s p
    let s := if clear then clearSlave s p else s
    (match rest.head? with
      | none => some s
      | some q => linkTo s p q).bind (followBranch false rest)

/-- The loop over the branches; `tree_round` is an 8-bit counter. -/
def linkLoop : ℕ → List (List Point) → LinkState → Option LinkState
  | _, [], s => some s
  | tree_round, b :: bs, s => (followBranch (tree_round == 0) b s).bind (linkLoop ((tree_round + 1) % 256) bs)

/-- The port of the shim tile, set after the loop; there is no value where the last of no
points is taken. -/
def setShimPort (d : DataIO) (s : LinkState) : Option LinkState :=
  match d.dmadir with
  | .s2mm =>
    s.points.getLast?.map fun last =>
      match d.shimport with
      | some (dir, port) =>
        if last = d.shim then
          { s with conn := update s.conn d.shim { s.conn d.shim with masterDir := dir, masterPort := port } }
        else s
      | none => s
  | .mm2s =>
    let (dir, port) := d.shimport.getD (.south, 3)
    some { s with conn := update s.conn d.shim { s.conn d.shim with slaveDir := dir, slavePort := port } }

/-- `GetSeqPath` up to the shim port. -/
def getSeqPath (m : ResourceMgr) (d : DataIO) (mp : MultiPath) : Option LinkState :=
  (linkLoop 0 mp.branches ⟨m, [], fun _ => .new⟩).bind (setShimPort d)

/-! ### What the recorded data does -/

/-- A tile sends on a port, by its primary or its secondary direction. -/
def Sends (dir : PortDirection) (port : ℕ) : Prop :=
  (c.masterDir = dir ∧ c.masterPort = port) ∨ (c.masterDir2 = dir ∧ c.masterPort2 = port)

instance (c : StreamCCTConnection) (dir : PortDirection) (port : ℕ) : Decidable (Sends c dir port) :=
  inferInstanceAs (Decidable (_ ∨ _))

section Data

variable (conn : Point → StreamCCTConnection)

/-- A tile drives a port of its neighbour. -/
def Feeds (p q : Point) (port : ℕ) : Prop := ∃ dir, getDir p q = some dir ∧ Sends (conn p) dir port

/-- A tile forwards to its neighbour what it receives: it drives the port on which the
neighbour receives. -/
def Forwards (p q : Point) : Prop :=
  Feeds conn p q (conn q).slavePort ∧ getDir q p = some (conn q).slaveDir

/-- **Delivery.** Every point but the source has one incoming link, which is the one it
receives on; a stream from the source comes to every sink; and every link that the tree
needs is driven by the masters recorded for its tile. -/
structure Delivers (src : Point) (points sinks : List Point) (links : List (Point × Point)) : Prop where
  one_in : ∀ q ∈ points, q ≠ src → ∃ p, Forwards conn p q ∧
    ∀ p' port, Feeds conn p' q port → p' = p ∧ port = (conn q).slavePort
  reach : ∀ sink ∈ sinks, Relation.ReflTransGen (Forwards conn) src sink
  masters : ∀ l ∈ links, ∃ port, Feeds conn l.1 l.2 port

end Data

/-- The links of a branch: to every point that is not on an earlier branch. -/
def newLinks (seen b : List Point) : List (Point × Point) :=
  (b.zip b.tail).filter fun l => decide (l.2 ∉ seen)

def treeLinks : List Point → List (List Point) → List (Point × Point)
  | _, [] => []
  | seen, b :: bs => newLinks seen b ++ treeLinks (seen ++ b) bs

/-- The points a tile feeds, in the order of the links. -/
def kids (links : List (Point × Point)) (p : Point) : List Point :=
  (links.filter fun l => decide (l.1 = p)).map Prod.snd

/-- The point starts a branch that the round counter takes for the first one. -/
def Cleared (bs : List (List Point)) (p : Point) : Prop :=
  ∃ k b, bs[k]? = some b ∧ k % 256 = 0 ∧ b.head? = some p

/-! ### What the loop has recorded -/

/-- A recorded direction and port lead to a point, or the direction is not set. -/
def Leads (port : Point → ℕ) (p : Point) (q : Option Point) (dir : PortDirection) (n : ℕ) : Prop :=
  match q with
  | none => dir = .none
  | some q => getDir p q = some dir ∧ n = port q

/-- The masters recorded for a tile that feeds some points: the primary direction leads to
the first of them, the secondary one to the last of the others. -/
structure Masters (port : Point → ℕ) (p : Point) (ks : List Point) (c : StreamCCTConnection) : Prop where
  primary : Leads port p ks.head? c.masterDir c.masterPort
  secondary : Leads port p ks.tail.getLast? c.masterDir2 c.masterPort2

/-- **What the loop has recorded** for the links so far. No point is linked to twice, and
every point can be reached by the links. -/
structure Linked (src : Point) (links : List (Point × Point)) (cleared : Point → Prop)
    (s : LinkState) : Prop where
  targets : (links.map Prod.snd).Nodup
  source : src ∉ links.map Prod.snd
  points : ∀ p, p ∈ s.points ↔ p = src ∨ p ∈ links.map Prod.snd
  starts : ∀ l ∈ links, l.1 ∈ s.points
  reach : ∀ p ∈ s.points, Relation.ReflTransGen (fun a b => (a, b) ∈ links) src p
  masters : ∀ p, Masters (fun q => (s.conn q).slavePort) p (kids links p) (s.conn p)
  slave : ∀ l ∈ links, ¬cleared l.2 → getDir l.2 l.1 = some (s.conn l.2).slaveDir
  nowhere : ∀ p, cleared p → p ∈ s.points ∧ (p ≠ src → (s.conn p).slaveDir = .none)
  fresh : ∀ p, p ∉ s.points → s.conn p = .new

section Links

variable {links : List (Point × Point)} {p q x : Point} {l : Link}

theorem mem_kids : q ∈ kids links p ↔ (p, q) ∈ links := by
  rw [kids, mem_map]
  constructor
  · rintro ⟨⟨a, b⟩, h, rfl⟩
    obtain ⟨hin, heq⟩ := mem_filter.1 h
    obtain rfl := of_decide_eq_true heq
    exact hin
  · intro h
    exact ⟨(p, q), mem_filter.2 ⟨h, decide_eq_true rfl⟩, rfl⟩

theorem kids_append_self : kids (links ++ [(p, q)]) p = kids links p ++ [q] := by
  rw [kids, filter_append, map_append, filter_singleton, decide_eq_true rfl]
  rfl

theorem kids_append_other (h : x ≠ p) : kids (links ++ [(p, q)]) x = kids links x := by
  rw [kids, filter_append, map_append, filter_singleton, decide_eq_false (Ne.symm h)]
  exact append_nil _

theorem kids_nodup (h : (links.map Prod.snd).Nodup) : (kids links p).Nodup :=
  h.sublist (filter_sublist.map _)

theorem two_masters_iff {ks : List Point} (h : ks.Nodup) :
    (∀ q ∈ ks, ks.head? = some q ∨ ks.tail.getLast? = some q) ↔ ks.length ≤ 2 := by
  rcases ks with _ | ⟨a, _ | ⟨b, _ | ⟨c, rest⟩⟩⟩
  · simp
  · simp
  · simp
  · refine ⟨fun hall => ?_, fun hlen => absurd hlen (by simp)⟩
    obtain ⟨hab, hbc, _⟩ : a ∉ b :: c :: rest ∧ b ∉ c :: rest ∧ (c :: rest).Nodup := by
      rw [nodup_cons, nodup_cons] at h
      exact h
    rcases hall b (mem_cons_of_mem _ mem_cons_self) with hb | hb
    · rw [head?_cons, Option.some.injEq] at hb
      rw [hb] at hab
      exact absurd mem_cons_self hab
    · rw [tail_cons, getLast?_cons_cons] at hb
      exact absurd (mem_of_getLast? hb) hbc

/-! ### One link -/

section Record

variable {conn : Point → StreamCCTConnection}

theorem record_next (hne : p ≠ q) : record conn p q true l q = (conn q).setSlave l := by
  rw [record, if_pos rfl, update_self, update_of_ne hne.symm]

theorem record_cur (hne : p ≠ q) : record conn p q true l p = (conn p).setMaster l := by
  rw [record, if_pos rfl, update_of_ne hne, update_self]

theorem record_other (hp : x ≠ p) (hq : x ≠ q) : record conn p q true l x = conn x := by
  rw [record, if_pos rfl, update_of_ne hq, update_of_ne hp]

theorem setMaster_slave :
    (c.setMaster l).slaveDir = c.slaveDir ∧ (c.setMaster l).slavePort = c.slavePort := by
  unfold StreamCCTConnection.setMaster
  split <;> exact ⟨rfl, rfl⟩

/-- A link changes where its end receives from, and nothing else about receiving. -/
theorem record_slave (hne : p ≠ q) (hq : x ≠ q) :
    (record conn p q true l x).slaveDir = (conn x).slaveDir ∧
      (record conn p q true l x).slavePort = (conn x).slavePort := by
  by_cases hp : x = p
  · rw [hp, record_cur hne]
    exact setMaster_slave (conn p)
  · rw [record_other hp hq]
    exact ⟨rfl, rfl⟩

end Record

theorem Leads.congr {port port' : Point → ℕ} {next : Option Point} {dir : PortDirection} {n : ℕ}
    (h : Leads port p next dir n) (hport : ∀ q, next = some q → port' q = port q) :
    Leads port' p next dir n := by
  cases next with
  | none => exact h
  | some q => exact ⟨h.1, h.2.trans (hport q rfl).symm⟩

section Fed

variable {port port' : Point → ℕ} {ks : List Point} {c : StreamCCTConnection}

theorem Masters.congr (h : Masters port p ks c) (hport : ∀ q ∈ ks, port' q = port q) : Masters port' p ks c :=
  ⟨h.primary.congr fun q hq => hport q (mem_of_head? hq),
    h.secondary.congr fun q hq => hport q (mem_of_mem_tail (mem_of_getLast? hq))⟩

theorem Masters.nil (hdir : c.masterDir = .none) (hdir2 : c.masterDir2 = .none) :
    Masters port p [] c := ⟨hdir, hdir2⟩

/-- One more point to feed: it is recorded in place of the secondary direction if there is
a primary one. -/
theorem Masters.setMaster (h : Masters port p ks c) (hdir : getDir p q = some l.dirAtoB)
    (hq : l.port = port q) :
    Masters port p (ks ++ [q]) (c.setMaster l) := by
  obtain ⟨hfirst, hother⟩ := h
  unfold StreamCCTConnection.setMaster
  cases ks with
  | nil =>
    have hnone : c.masterDir = .none := hfirst
    rw [if_neg (not_not.2 hnone)]
    exact ⟨⟨hdir, hq⟩, hother⟩
  | cons k ks =>
    have hsome : c.masterDir ≠ .none := fun hnone => getDir_ne_none (hnone ▸ hfirst.1)
    rw [if_pos hsome]
    refine ⟨hfirst, ?_⟩
    rw [cons_append, tail_cons, getLast?_concat]
    exact ⟨hdir, hq⟩

end Fed

section Step

variable {src : Point} {cleared : Point → Prop} {s : LinkState}

theorem Linked.kids_mem (h : Linked src links cleared s) (hx : x ∈ kids links p) : x ∈ s.points :=
  (h.points x).2 (.inr (mem_map.2 ⟨(p, x), mem_kids.1 hx, rfl⟩))

/-- **A link to a new point** is recorded at both its ends. -/
theorem Linked.hop (h : Linked src links cleared s) {m : ResourceMgr} (hp : p ∈ s.points) (hq : q ∉ s.points)
    (hlink : occupyLink s.mgr p q = some (m, l)) :
    Linked src (links ++ [(p, q)]) cleared ⟨m, s.points ++ [q], record s.conn p q true l⟩ := by
  obtain ⟨hdir, hback⟩ := occupyLink_dirs hlink
  have hne : p ≠ q := fun heq => hq (heq ▸ hp)
  have hqnew : q ∉ links.map Prod.snd := fun hin => hq ((h.points q).2 (.inr hin))
  have hqsrc : q ≠ src := fun heq => hq ((h.points q).2 (.inl heq))
  have hqkids : kids links q = [] := by
    rw [eq_nil_iff_forall_not_mem]
    exact fun x hx => hq (h.starts _ (mem_kids.1 hx))
  have hsnd : (links ++ [(p, q)]).map Prod.snd = links.map Prod.snd ++ [q] := map_append
  -- the port of a point that was fed before is the same
  have hport : ∀ y, ∀ x ∈ kids links y, (record s.conn p q true l x).slavePort = (s.conn x).slavePort := by
    intro y x hx
    exact (record_slave hne fun heq => hq (heq ▸ h.kids_mem hx)).2
  have hqport : (record s.conn p q true l q).slavePort = l.port := by
    rw [record_next hne]
    rfl
  constructor
  case targets =>
    rw [hsnd]
    exact List.Nodup.append h.targets (nodup_singleton q) (by simpa using hqnew)
  case source =>
    rw [hsnd, mem_append, mem_singleton]
    exact fun hin => hin.elim h.source fun heq => hqsrc heq.symm
  case points =>
    intro x
    rw [hsnd, mem_append, mem_append, h.points x, or_assoc]
  case starts =>
    intro e he
    rcases mem_append.1 he with hin | hin
    · exact mem_append_left _ (h.starts e hin)
    · obtain rfl := mem_singleton.1 hin
      exact mem_append_left _ hp
  case reach =>
    have hmono : ∀ x ∈ s.points, Relation.ReflTransGen (fun a b => (a, b) ∈ links ++ [(p, q)]) src x :=
      fun x hx => Relation.ReflTransGen.mono (fun a b hab => mem_append_left _ hab) src x (h.reach x hx)
    intro x hx
    rcases mem_append.1 hx with hin | hin
    · exact hmono x hin
    · obtain rfl := mem_singleton.1 hin
      exact .tail (hmono p hp) (mem_append_right _ (mem_singleton.2 rfl))
  case masters =>
    intro x
    have hold : Masters (fun y => (record s.conn p q true l y).slavePort) x (kids links x) (s.conn x) :=
      (h.masters x).congr (hport x)
    dsimp only
    by_cases hxp : x = p
    · rw [hxp, kids_append_self, record_cur hne]
      exact (hxp ▸ hold).setMaster hdir hqport.symm
    rw [kids_append_other hxp]
    by_cases hxq : x = q
    · rw [hxq, hqkids, record_next hne, h.fresh q hq]
      exact .nil rfl rfl
    rw [record_other hxp hxq]
    exact hold
  case slave =>
    intro e he hclear
    rcases mem_append.1 he with hin | hin
    · have heq : e.2 ≠ q := fun heq => hqnew (mem_map.2 ⟨e, hin, heq⟩)
      rw [(record_slave hne heq).1]
      exact h.slave e hin hclear
    · obtain rfl := mem_singleton.1 hin
      dsimp only
      rw [record_next hne]
      exact (getDir_symm hdir).trans (congrArg some hback.symm)
  case nowhere =>
    intro x hx
    obtain ⟨hin, hnone⟩ := h.nowhere x hx
    rw [(record_slave hne fun heq => hq (heq ▸ hin)).1]
    exact ⟨mem_append_left _ hin, hnone⟩
  case fresh =>
    intro x hx
    rw [mem_append, mem_singleton, not_or] at hx
    have hxp : x ≠ p := fun heq => hx.1 (heq ▸ hp)
    dsimp only
    rw [record_other hxp hx.2]
    exact h.fresh x hx.1

/-- **A change of where one point receives from**: to nowhere, or at the source. -/
theorem Linked.reslave (h : Linked src links cleared s) (hp : p ∈ s.points) {dir : PortDirection} {port : ℕ}
    (hsame : p ≠ src → dir = .none ∧ port = (s.conn p).slavePort) :
    Linked src links (fun x => cleared x ∨ x = p)
      { s with conn := update s.conn p { s.conn p with slaveDir := dir, slavePort := port } } := by
  have hmaster : ∀ x, (update s.conn p { s.conn p with slaveDir := dir, slavePort := port } x) =
      { s.conn x with
        slaveDir := if x = p then dir else (s.conn x).slaveDir
        slavePort := if x = p then port else (s.conn x).slavePort } := by
    intro x
    by_cases hx : x = p
    · rw [hx, update_self, if_pos rfl, if_pos rfl]
    · rw [update_of_ne hx, if_neg hx, if_neg hx]
  have hport : ∀ y, ∀ k ∈ kids links y, (if k = p then port else (s.conn k).slavePort) =
      (s.conn k).slavePort := by
    intro y k hk
    by_cases hkp : k = p
    · have hks : k ≠ src := fun heq => h.source (mem_map.2 ⟨(y, k), mem_kids.1 hk, heq⟩)
      rw [if_pos hkp, (hsame (hkp ▸ hks)).2, hkp]
    · rw [if_neg hkp]
  refine ⟨h.targets, h.source, h.points, h.starts, h.reach, ?_, ?_, ?_, ?_⟩
  · intro x
    simp only [hmaster]
    obtain ⟨hfirst, hother⟩ := (h.masters x).congr (hport x)
    exact ⟨hfirst, hother⟩
  · intro e he hclear
    rw [not_or] at hclear
    simp only [hmaster, if_neg hclear.2]
    exact h.slave e he hclear.1
  · intro x hx
    simp only [hmaster]
    by_cases hxp : x = p
    · rw [if_pos hxp]
      exact ⟨hxp ▸ hp, fun hne => (hsame (hxp ▸ hne)).1⟩
    · rw [if_neg hxp]
      exact h.nowhere x (hx.resolve_right hxp)
  · intro x hx
    have hxp : x ≠ p := fun heq => hx (heq ▸ hp)
    dsimp only
    rw [update_of_ne hxp]
    exact h.fresh x hx

/-! ### What is delivered -/

section

variable (h : Linked src links cleared s)

include h

theorem Linked.feeds_iff {port : ℕ} :
    Feeds s.conn p q port ↔
      port = (s.conn q).slavePort ∧
      ((kids links p).head? = some q ∨ (kids links p).tail.getLast? = some q) := by
  obtain ⟨hfirst, hother⟩ := h.masters p
  -- a direction that is set leads to the point it was set for
  have hleads : ∀ {next : Option Point} {dir dir' : PortDirection} {n : ℕ}, getDir p q = some dir' →
      Leads (fun q => (s.conn q).slavePort) p next dir n → dir = dir' → next = some q ∧
        n = (s.conn q).slavePort := by
    rintro next dir _ n hdir hl rfl
    cases next with
    | none =>
      have hnone : dir = .none := hl
      exact absurd (hnone ▸ hdir) getDir_ne_none
    | some k =>
      obtain rfl := getDir_inj hdir hl.1
      exact ⟨rfl, hl.2⟩
  constructor
  · rintro ⟨dir, hdir, ⟨hd, rfl⟩ | ⟨hd, rfl⟩⟩
    · obtain ⟨hq, hport⟩ := hleads hdir hfirst hd
      exact ⟨hport, .inl hq⟩
    · obtain ⟨hq, hport⟩ := hleads hdir hother hd
      exact ⟨hport, .inr hq⟩
  · rintro ⟨rfl, hq | hq⟩
    · rw [hq] at hfirst
      exact ⟨_, hfirst.1, .inl ⟨rfl, hfirst.2⟩⟩
    · rw [hq] at hother
      exact ⟨_, hother.1, .inr ⟨rfl, hother.2⟩⟩

theorem Linked.link_of_feeds {port : ℕ} (hf : Feeds s.conn p q port) : (p, q) ∈ links := by
  rcases (h.feeds_iff.1 hf).2 with hq | hq
  · exact mem_kids.1 (mem_of_head? hq)
  · exact mem_kids.1 (mem_of_mem_tail (mem_of_getLast? hq))

/-- All links are driven exactly if no tile feeds more than two points. -/
theorem Linked.masters_iff : (∀ e ∈ links, ∃ port, Feeds s.conn e.1 e.2 port) ↔
    ∀ p, (kids links p).length ≤ 2 := by
  constructor
  · intro hall p
    refine (two_masters_iff (kids_nodup h.targets)).1 fun q hq => ?_
    obtain ⟨port, hf⟩ := hall (p, q) (mem_kids.1 hq)
    exact (h.feeds_iff.1 hf).2
  · rintro hall ⟨p, q⟩ he
    exact ⟨_, h.feeds_iff.2 ⟨rfl, (two_masters_iff (kids_nodup h.targets)).2 (hall p) q (mem_kids.2 he)⟩⟩

/-- **Delivery** from what the loop has recorded. -/
theorem Linked.delivers_iff {points sinks : List Point} (hpoints : ∀ x, x ∈ s.points ↔ x ∈ points)
    (hsinks : ∀ x ∈ sinks, x ∈ points) :
    Delivers s.conn src points sinks links ↔ (∀ p, (kids links p).length ≤ 2) ∧ ∀ p, cleared p → p = src := by
  constructor
  · intro hd
    refine ⟨h.masters_iff.1 hd.masters, fun p hp => ?_⟩
    by_contra hne
    obtain ⟨hin, hnone⟩ := h.nowhere p hp
    obtain ⟨_, ⟨_, hdir⟩, _⟩ := hd.one_in p ((hpoints p).1 hin) hne
    rw [hnone hne] at hdir
    exact getDir_ne_none hdir
  · rintro ⟨hkids, hclear⟩
    have hfeeds := h.masters_iff.2 hkids
    have hforward : ∀ a b, (a, b) ∈ links → Forwards s.conn a b := by
      intro a b hab
      obtain ⟨port, hf⟩ := hfeeds (a, b) hab
      have hb : ¬cleared b := fun hc => h.source (mem_map.2 ⟨(a, b), hab, hclear b hc⟩)
      exact ⟨(h.feeds_iff.1 hf).1 ▸ hf, h.slave (a, b) hab hb⟩
    refine ⟨?_, ?_, hfeeds⟩
    · intro q hq hne
      obtain ⟨⟨p, _⟩, hlink, rfl⟩ := mem_map.1 (((h.points q).1 ((hpoints q).2 hq)).resolve_left hne)
      refine ⟨p, hforward p _ hlink, fun p' port hf => ⟨?_, (h.feeds_iff.1 hf).1⟩⟩
      have heq := inj_on_of_nodup_map h.targets (h.link_of_feeds hf) hlink rfl
      exact congrArg Prod.fst heq
    · intro sink hsink
      exact Relation.ReflTransGen.mono hforward src sink (h.reach sink ((hpoints sink).2 (hsinks sink hsink)))

end

end Step

end Links

end AieHlc.Route
