import AieHlc.Route.Delivery

/-!
# Paths and their callers

Model of `createPath` (`routingtopology.cpp`), of `ParseTheCCTRoutingPath` and
`GatherPktRoutingPathCreate`, and of the lowering of `create_path`
(`passdmaphoptoroutinghw.cpp`). `createPath` does not look at what `addIOTree` returns.

* `createPath`, `lowerCreatePath`: a path for a flow, and the operations emitted for it.
* `PathSound`: a path connects every end, and a flow that cannot be routed is refused.
* `createPath_sound`: **a path is sound if the ends are connectable, and only if there are routes to them.**
-/

namespace AieHlc.Route

open Option List

/-- What `createPath` reads of the `RoutingTopology`. -/
structure Topology where
  mgr : ResourceMgr
  dataios : ℤ → Option DataIO

variable (t : Topology)

/-- The grid that is searched: the list of walls is empty. -/
def Topology.grid : Grid := ⟨t.mgr, fun _ => false⟩

/-- `createPath`: a path, or `nullopt` for an unknown `DataIO`. -/
def createPath (dioID : ℤ) (dsttiles : List Point) : Option (Option RoutingPath) :=
  match t.dataios dioID with
  | none => some none
  | some d => (addIOTree t.grid (some d) dsttiles .new).map fun r => some r.2

/-! ### The callers -/

/-- The operations that configure switches: `EnableExtToAieShimPort` or
`EnableAieToExtShimPort`, `ConnectStreamSingleSwitchPort`, and
`ConnectStreamPktSwitchPort` with its packet id and local port. -/
inductive SwitchOp where
  | shimPort (io : DmaDirection) (dir : PortDirection) (port : ℕ)
  | connect (tile : Point) (slaveDir : PortDirection) (slavePort : ℕ) (masterDir : PortDirection)
    (masterPort : ℕ)
  | packet (tile : Point) (slaveDir : PortDirection) (slavePort pktId : ℕ) (localDma : Option (ℕ × ℕ))
      (masterDir : PortDirection) (masterPort : ℕ)
  deriving DecidableEq, Repr

/-- A flow that `create_path` asks for: its tiles, the tiles that produce, whether it carries
control packets, the local port of a tile, and the port and packet id of each producer. -/
structure Flow where
  coreTileList : List Point
  producers : List Point
  control : Bool
  sinkPort : Point → Option ℕ
  producerPort : ℕ → ℕ × ℕ

/-- The external port of the shim tile, where the tile receives anything. -/
def shimOps (d : DataIO) (shimpoint : Point) (s : LinkState) (p : Point) : List SwitchOp :=
  if (s.conn p).slaveDir = .none then []
  else if p = shimpoint then
    [.shimPort d.dmadir (s.conn p).slaveDir ((d.shimport.map Prod.snd).getD (s.conn p).slavePort)]
  else []

/-- The connection of one master, if it is set. -/
def masterOp (p : Point) (c : StreamCCTConnection) (dir : PortDirection) (port : ℕ) : List SwitchOp :=
  if dir = .none then [] else [.connect p c.slaveDir c.slavePort dir port]

/-- The connection into a tile of the flow: to its control port or to its DMA. -/
def sinkOp (flow : Flow) (ctrlPktId : ℕ) (p : Point) (c : StreamCCTConnection) : List SwitchOp :=
  match flow.sinkPort p with
  | none => []
  | some port =>
    if flow.control then [.packet p c.slaveDir c.slavePort ctrlPktId none .none 0]
    else [.connect p c.slaveDir c.slavePort .dma port]

/-- The connections of one tile; a tile that receives from nowhere is skipped, unless the
packets of the producers end there. -/
def tileOps (flow : Flow) (ctrlPktId : ℕ) (shimpoint : Point) (lastPkt : Option Point)
    (s : LinkState) (p : Point) :
    List SwitchOp :=
  let c := s.conn p
  if c.slaveDir = .none then
    if lastPkt = some p then [.packet p .none 0 0 none c.masterDir c.masterPort] else []
  else
    masterOp p c c.masterDir c.masterPort ++ masterOp p c c.masterDir2 c.masterPort2 ++
      if p = shimpoint then [] else sinkOp flow ctrlPktId p c

/-- `ParseTheCCTRoutingPath`; the packet id of a control flow has five bits. -/
def parseTheCCTRoutingPath (m : ResourceMgr) (d : DataIO) (dioID : ℤ) (flow : Flow) (lastPkt : Option Point)
    (rp : RoutingPath) : Option (List SwitchOp) :=
  let shimpoint : Point := ⟨0, d.colpos⟩
  (getSeqPath m d rp.multipaths).map fun s =>
    s.points.flatMap (shimOps d shimpoint s) ++
      s.points.flatMap (tileOps flow (dioID % 32).toNat shimpoint lastPkt s)

/-- The order of producers: by row, then by column. -/
def producerLe (a b : Point) : Prop := a.r < b.r ∨ (a.r = b.r ∧ a.c ≤ b.c)

instance : DecidableRel producerLe := fun _ _ => inferInstanceAs (Decidable (_ ∨ _))

/-- One tile of the chain of producers: it receives from the tile before it. There is no
value where the link cannot be taken. -/
def gatherStep (s : ResourceMgr × (Point → StreamCCTConnection) × Point) (p : Point) :
    Option (ResourceMgr × (Point → StreamCCTConnection) × Point) :=
  let (m, conn, prev) := s
  let conn := Function.update conn p { conn p with slaveDir := .none, masterDir := .none }
  if prev = p then some (m, conn, prev)
  else (occupyLink m prev p).map fun r =>
    let conn := Function.update conn prev { conn prev with masterDir := r.2.dirAtoB, masterPort := r.2.port }
    (r.1, Function.update conn p { conn p with slaveDir := r.2.dirBtoA, slavePort := r.2.port }, p)

/-- `GatherPktRoutingPathCreate`: the occupancy after it, the operations of the chain, and
its last tile. A second path is created, and only tested for `nullopt`. -/
def gatherPktRoutingPathCreate (dioID : ℤ) (flow : Flow) :
    Option (Option (ResourceMgr × List SwitchOp × Point)) :=
  let tilist := flow.producers.insertionSort producerLe
  (createPath t dioID (flow.coreTileList.dedup.insertionSort producerLe)).bind fun rpath2 =>
    match rpath2, tilist.head?, tilist.getLast? with
    | some _, some first, some last =>
      (tilist.foldlM gatherStep (t.mgr, fun _ => .new, first)).map fun s =>
        let op := fun (i : ℕ) (p : Point) =>
          let c := s.2.1 p
          SwitchOp.packet p c.slaveDir c.slavePort 0 (some (flow.producerPort i)) c.masterDir c.masterPort
        some (s.1, tilist.mapIdx op, last)
    | _, _, _ => some none

/-- The lowering of `create_path`: the operations that configure switches. -/
def lowerCreatePath (d : DataIO) (dioID : ℤ) (flow : Flow) : Option (List SwitchOp) :=
  if flow.coreTileList = [] then some []
  else
    (createPath t dioID flow.coreTileList).bind fun rpath =>
      match rpath with
      | none => some []
      | some rp =>
        if d.dmadir = .s2mm ∧ flow.producers ≠ [] then
          (gatherPktRoutingPathCreate t dioID flow).bind fun gathered =>
            match gathered with
            | none => parseTheCCTRoutingPath t.mgr d dioID flow none rp
            | some (m, ops, last) => (parseTheCCTRoutingPath m d dioID flow (some last) rp).map (ops ++ ·)
        else parseTheCCTRoutingPath t.mgr d dioID flow none rp

/-! ### Soundness of a path -/

/-- An end of a flow that no route leads to. -/
def Unreachable (g : Grid) (d : DataIO) (dsttiles : List Point) (e : Point) : Prop :=
  ∀ src, source d dsttiles = some src → ¬Reaches g src e

/-- **No silent partial route.** A path is handed out only if all ends of the flow are on a
branch of its tree; if one of them cannot be reached, there is no path, and a caller emits
nothing for the flow. -/
structure PathSound (t : Topology) (d : DataIO) (dsttiles : List Point) (rpath : Option RoutingPath)
    (lowered : Option (List SwitchOp)) : Prop where
  connected : ∀ rp, rpath = some rp → ∀ e ∈ endpoints d dsttiles, e ∈ rp.multipaths.branches.flatten
  refused : ∀ e ∈ endpoints d dsttiles, Unreachable t.grid d dsttiles e → rpath = none ∧ lowered = some []

/-- **Paths.** A path always comes back for a known `DataIO`. It is sound if nothing is to be connected or the
ends are connectable, and only if there is a route to every end. -/
theorem createPath_sound (t : Topology) (d : DataIO) (dioID : ℤ) (hdio : t.dataios dioID = some d)
    (flow : Flow) :
    ∃ rpath, createPath t dioID flow.coreTileList = some rpath ∧
      (endpoints d flow.coreTileList = [] ∨ Connectable t.grid d flow.coreTileList →
        PathSound t d flow.coreTileList rpath (lowerCreatePath t d dioID flow)) ∧
      (PathSound t d flow.coreTileList rpath (lowerCreatePath t d dioID flow) →
        endpoints d flow.coreTileList = [] ∨ Routed t.grid d flow.coreTileList) := by
  obtain ⟨⟨ok, rp⟩, hadd, hstored, hkept, hgrows⟩ := addIOTree_spec (g := t.grid) d flow.coreTileList
  have htree : ok = true → ∃ src, source d flow.coreTileList = some src ∧
      ∀ e ∈ endpoints d flow.coreTileList, e ∈ rp.multipaths.branches.flatten ∧ Reaches t.grid src e := by
    intro hok
    obtain ⟨hends, src, hsrc, _, hgrown⟩ := hstored hok
    refine ⟨src, hsrc, fun e he => ?_⟩
    have hmem := hgrown.sink_mem e (hends.mem_iff.2 he)
    exact ⟨hmem, hgrown.route hmem⟩
  refine ⟨some rp, ?_, ?_, ?_⟩
  · rw [createPath, hdio]
    dsimp only
    rw [hadd, map_some]
  · intro h
    by_cases hnil : endpoints d flow.coreTileList = []
    · refine ⟨?_, ?_⟩ <;> rw [hnil] <;> nofun
    · obtain ⟨src, hsrc, hends⟩ := htree (hgrows hnil (h.resolve_left hnil))
      refine ⟨?_, fun e he hnone => absurd (hends e he).2 (hnone src hsrc)⟩
      intro rp' heq e he
      obtain rfl := Option.some.inj heq
      exact (hends e he).1
  · intro hsound
    cases ok with
    | true =>
      obtain ⟨src, hsrc, hends⟩ := htree rfl
      exact .inr ⟨src, hsrc, fun e he => (hends e he).2⟩
    | false =>
      left
      -- a failed search leaves a path without branches
      rw [eq_nil_iff_forall_not_mem]
      intro e he
      have hin := hsound.connected rp rfl e he
      rw [hkept rfl] at hin
      exact not_mem_nil hin

/-- Two columns of tiles, of which the partition has the first. -/
def oneColumn : Topology :=
  ⟨⟨4, 2, 0, 0, -1, -1, fun _ _ => ⟨[false], [false]⟩⟩, fun _ => some ⟨0, 0, .mm2s, none⟩⟩

/-- A flow from the shim to some tiles. -/
def flowTo (dsttiles : List Point) : Flow := ⟨dsttiles, [], false, fun _ => some 0, fun _ => (0, 1)⟩

/-- A tile in the column is connected. -/
theorem createPath_sound_inside : ∃ rpath, createPath oneColumn 7 [⟨3, 0⟩] = some rpath ∧
    PathSound oneColumn ⟨0, 0, .mm2s, none⟩ [⟨3, 0⟩] rpath
      (lowerCreatePath oneColumn ⟨0, 0, .mm2s, none⟩ 7 (flowTo [⟨3, 0⟩])) := by
  obtain ⟨rpath, hrun, hsound, -⟩ := createPath_sound oneColumn ⟨0, 0, .mm2s, none⟩ 7 rfl (flowTo [⟨3, 0⟩])
  refine ⟨rpath, hrun, hsound (.inr ⟨⟨⟨0, 0⟩, rfl, fun e he => ?_⟩, .inl rfl⟩)⟩
  obtain rfl := mem_singleton.1 he
  have hup : ∀ r : Fin 3, Legal oneColumn.grid ⟨(r : ℕ), 0⟩ ⟨(r + 1 : ℕ), 0⟩ := fun r =>
    ⟨by simp [Neighbours], by decide +revert, by decide +revert, rfl, by decide +revert, by decide +revert⟩
  exact ⟨[⟨0, 0⟩, ⟨1, 0⟩, ⟨2, 0⟩, ⟨3, 0⟩], rfl, rfl, by decide, rfl,
    .cons_cons (hup 0) (.cons_cons (hup 1) (.cons_cons (hup 2) (.singleton _)))⟩

/-- What a caller makes of a path without branches: nothing, or (towards the shim) it takes
the last of no points. -/
theorem parse_no_branches {m : ResourceMgr} {d : DataIO} {dioID : ℤ} {flow : Flow} {lastPkt : Option Point}
    {rp : RoutingPath} (h : rp.multipaths.branches = []) :
    parseTheCCTRoutingPath m d dioID flow lastPkt rp = if d.dmadir = .mm2s then some [] else none := by
  unfold parseTheCCTRoutingPath getSeqPath
  rw [h, linkLoop, bind_some]
  unfold setShimPort
  cases d.dmadir with
  | mm2s => rfl
  | s2mm => rfl

/-- **A failed search.** The lowering goes on: a flow from the shim is dropped without a
word, a flow to the shim ends in the last of no points. -/
theorem lowerCreatePath_failed {t : Topology} {d : DataIO} {dioID : ℤ}
    (hdio : t.dataios dioID = some d) {flow : Flow}
    {rp : RoutingPath} (hfail : addIOTree t.grid (some d) flow.coreTileList .new = some (false, rp))
    (hne : flow.coreTileList ≠ []) :
    createPath t dioID flow.coreTileList = some (some rp) ∧ rp.multipaths.branches = [] ∧
      lowerCreatePath t d dioID flow = if d.dmadir = .mm2s then some [] else none := by
  have hcreate : createPath t dioID flow.coreTileList = some (some rp) := by
    rw [createPath, hdio]
    dsimp only
    rw [hfail, map_some]
  have hbranches : rp.multipaths.branches = [] := by
    obtain ⟨r, hr, _, hkept, _⟩ := addIOTree_spec (g := t.grid) d flow.coreTileList
    obtain rfl := Option.some.inj (hfail.symm.trans hr)
    exact congrArg MultiPath.branches (hkept rfl)
  refine ⟨hcreate, hbranches, ?_⟩
  rw [lowerCreatePath, if_neg hne, hcreate, bind_some]
  dsimp only
  split
  case isTrue hgather =>
    have hdir : d.dmadir ≠ .mm2s := by
      rw [hgather.1]
      exact nofun
    rw [if_neg hdir]
    -- whatever the chain of producers does, there is no path behind it
    cases gatherPktRoutingPathCreate t dioID flow with
    | none => rfl
    | some gathered =>
      cases gathered with
      | none => exact (parse_no_branches hbranches).trans (if_neg hdir)
      | some r =>
        rw [bind_some]
        dsimp only
        rw [parse_no_branches hbranches, if_neg hdir, map_none]
  case isFalse => exact parse_no_branches hbranches

/-- Two tiles, one of them outside the column: a path without branches is handed out, and
nothing is emitted for the tile that could be reached either. -/
theorem not_createPath_sound_outside : ∃ rp, createPath oneColumn 7 [⟨3, 0⟩, ⟨3, 1⟩] = some (some rp) ∧
    rp.multipaths.branches = [] ∧
    lowerCreatePath oneColumn ⟨0, 0, .mm2s, none⟩ 7 (flowTo [⟨3, 0⟩, ⟨3, 1⟩]) = some [] ∧
    ¬PathSound oneColumn ⟨0, 0, .mm2s, none⟩ [⟨3, 0⟩, ⟨3, 1⟩] (some rp)
      (lowerCreatePath oneColumn ⟨0, 0, .mm2s, none⟩ 7 (flowTo [⟨3, 0⟩, ⟨3, 1⟩])) := by
  have hadd : (addIOTree oneColumn.grid (some ⟨0, 0, .mm2s, none⟩) [⟨3, 0⟩, ⟨3, 1⟩] .new).map Prod.fst =
      some false := by
    decide +kernel
  obtain ⟨⟨_, rp⟩, hrp, rfl⟩ := map_eq_some_iff.1 hadd
  obtain ⟨hcreate, hbranches, hlower⟩ := @lowerCreatePath_failed oneColumn ⟨0, 0, .mm2s, none⟩ 7 rfl
    (flowTo [⟨3, 0⟩, ⟨3, 1⟩]) rp hrp (cons_ne_nil _ _)
  refine ⟨rp, hcreate, hbranches, hlower, fun hsound => ?_⟩
  have hin := hsound.connected rp rfl ⟨3, 0⟩ mem_cons_self
  rw [hbranches] at hin
  exact not_mem_nil hin

end AieHlc.Route
