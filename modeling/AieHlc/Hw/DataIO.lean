import AieHlc.Alloc.Grant
import AieHlc.Hw.Ports

/-!
# Channels and ports of the shim tiles

A stream between the memory and the tiles enters or leaves through a shim tile: over a channel of
its DMA engine and through a stream port towards the memory. `createDataIO` looks for a free channel
near the destination, `createDataIOAtPoint` takes tile and channel as given. Both then take a port,
the first free one of the bank.

* `Topology`: channels and ports of the shim tiles; `Topology.run`: a sequence of requests.
* `Handed`: streams handed out with the ports of their channels.
* `Topology.InStep`: requests that keep free channels and free ports in step.
* `shim_sound`: in runs of such requests channels are unique and match their ports.
* `shimSound_near`: requests that leave the channel open are such, when channels and ports agree at the start.
-/

namespace AieHlc.Hw

open Function List AieHlc.Alloc AieHlc.Route

variable {col : ℤ} {dir : DMADirection} {d : DataIO}

inductive DMADirection where
  | mm2s
  | s2mm
  deriving DecidableEq, Repr

def DMADirection.ioType : DMADirection → IOType
  | .mm2s => .input
  | .s2mm => .output

structure ChannelState where
  allocated : Bool := false
  allocatedBy : ℤ := -1
  deriving DecidableEq, Repr

/-- The DMA channels of a shim tile. -/
structure ShimTile where
  col : ℤ
  reserved : Bool := false
  reservedByIoId : ℤ := -1
  mm2s : List ChannelState
  s2mm : List ChannelState
  deriving DecidableEq, Repr

variable (t : ShimTile)

namespace ShimTile

def channels : DMADirection → List ChannelState
  | .mm2s => t.mm2s
  | .s2mm => t.s2mm

def setChannels (cs : List ChannelState) : DMADirection → ShimTile
  | .mm2s => { t with mm2s := cs }
  | .s2mm => { t with s2mm := cs }

def isHardReservedByOther (ioId : ℤ) : Bool := t.reserved && decide (t.reservedByIoId ≠ ioId)

def hasAnyFreeChannelForEngine (direct : DMADirection) : Bool :=
  (t.channels direct).any fun ch => !ch.allocated

/-- A given channel, or the first free one when none is given. -/
def allocate (direct : DMADirection) (preferredChannel : ℤ) (ioId : ℤ) : Option (ℕ × ShimTile) :=
  if t.isHardReservedByOther ioId then none
  else if preferredChannel ≥ 0 then
    match (t.channels direct)[preferredChannel.toNat]? with
    | none => none
    | some ch =>
      if ch.allocated = false ∨ ch.allocatedBy = ioId then
        some (preferredChannel.toNat,
          t.setChannels ((t.channels direct).set preferredChannel.toNat ⟨true, ioId⟩) direct)
      else none
  else
    match (t.channels direct).findIdx? fun ch => !ch.allocated with
    | none => none
    | some ch => some (ch, t.setChannels ((t.channels direct).set ch ⟨true, ioId⟩) direct)

end ShimTile

/-- A stream between memory and tiles. -/
structure DataIO where
  id : ℤ
  row : ℤ
  col : ℤ
  dir : DMADirection
  channel : ℤ
  shimport : Option ℕ
  deriving DecidableEq, Repr

/-- Channels and ports of the shim tiles, and the counters of the streams. -/
structure Topology where
  /-- in the order the map is walked -/
  shims : List ShimTile
  partition : Option (ℤ × ℤ)
  /-- the ports towards the memory, by column -/
  south : ℤ → PortRole → PortBank
  lastdioid : ℤ
  nextId : ℤ

namespace Topology

def isColInPartition (T : Topology) (c : ℤ) : Bool :=
  match T.partition with
  | none => true
  | some (start, stop) => decide (c ≥ start) && decide (c ≤ stop)

/-- The tile that is kept of two: a later one must be nearer. -/
def nearer (dest : ℤ) (found : Option ShimTile) (t : ShimTile) : Option ShimTile :=
  match found with
  | none => some t
  | some old => if (t.col - dest).natAbs < (old.col - dest).natAbs then some t else some old

def setShim (T : Topology) (col : ℤ) (t' : ShimTile) : Topology :=
  { T with shims := T.shims.map fun s => if s.col = col then t' else s }

def freeShimNoc (T : Topology) (dest : ℤ) (direct : DMADirection) (requesterIoId : ℤ) :
    Option (ℤ × ℕ × Topology) :=
  let found := (T.shims.filter fun t => T.isColInPartition t.col &&
    !(decide (requesterIoId ≥ 0) && t.reserved && decide (t.reservedByIoId ≠ requesterIoId)) &&
    t.hasAnyFreeChannelForEngine direct).foldl (nearer dest) none
  match found with
  | none => none
  | some t =>
    match t.allocate direct (-1) requesterIoId with
    | none => none
    | some (ch, t') => some (t.col, ch, T.setShim t.col t')

/-- The ports towards the memory that a direction takes. -/
def bank (T : Topology) (col : ℤ) (dir : DMADirection) : PortBank := T.south col dir.ioType.role

def setBank (T : Topology) (col : ℤ) (dir : DMADirection) (b : PortBank) : Topology :=
  { T with south := update T.south col (update (T.south col) dir.ioType.role b) }

/-- `_createDataIO`: only on a shim tile a port is looked for. -/
def create (T : Topology) (p : Point) (direction : DMADirection) (channel : ℤ) : DataIO × Topology :=
  let id := T.nextId + 1
  if p.r = 0 then
    match (T.bank p.c direction).occupyport id with
    | some (portidx, b) =>
      (⟨id, p.r, p.c, direction, channel, some (b.getPortnumFromPortIdx portidx)⟩,
        { T with nextId := id }.setBank p.c direction b)
    | none => (⟨id, p.r, p.c, direction, channel, none⟩, { T with nextId := id })
  else (⟨id, p.r, p.c, direction, channel, none⟩, { T with nextId := id })

def createDataIO (T : Topology) (dest : ℤ) (direct : DMADirection) : Option DataIO × Topology :=
  let T₁ := { T with lastdioid := T.lastdioid + 1 }
  match T₁.freeShimNoc dest direct T₁.lastdioid with
  | none => (none, T₁)
  | some (col, channel, T₂) =>
    let (dio, T₃) := T₂.create ⟨0, col⟩ direct channel
    (some dio, T₃)

def createDataIOAtPoint (T : Topology) (shimPoint : Point) (direction : DMADirection) (channel : ℤ) :
    Option DataIO × Topology :=
  let (dio, T₁) := T.create shimPoint direction channel
  (some dio, T₁)

end Topology

/-- A request for a stream. -/
inductive Request where
  | near (dest : ℤ) (direct : DMADirection)
  | atPoint (shimPoint : Point) (direction : DMADirection) (channel : ℤ)
  deriving DecidableEq, Repr

def Topology.answer (T : Topology) : Request → Option DataIO × Topology
  | .near dest direct => T.createDataIO dest direct
  | .atPoint p direction channel => T.createDataIOAtPoint p direction channel

/-- The streams that are returned, in order; a request that throws returns none. -/
def Topology.run : List Request → Topology → List DataIO × Topology
  | [], T => ([], T)
  | r :: rest, T =>
    let (dio, T₁) := T.answer r
    let (dios, T₂) := run rest T₁
    (dio.toList ++ dios, T₂)

/-! ## What a run hands out -/

/-- The channel of a stream: column, direction and number. -/
def DataIO.key (d : DataIO) : ℤ × DMADirection × ℤ := (d.col, d.dir, d.channel)

/-- The channels whose port is not free. -/
def taken (T : Topology) : Set (ℤ × DMADirection × ℤ) :=
  {k | ∀ i ∈ (T.bank k.1 k.2.1).indicesFree, k.2.2 ≠ (i : ℤ)}

/-- The stream's port is the one of its channel. -/
def Topology.Belongs (T : Topology) (d : DataIO) : Prop :=
  ∃ ch : ℕ, d.channel = ch ∧ ch < (T.bank d.col d.dir).ports.length ∧
    d.shimport = some ((T.bank d.col d.dir).getPortnumFromPortIdx ch)

/-- From `T` to `T'` the streams `ds` are handed out, each with the port of its channel. -/
structure Handed (T T' : Topology) (ds : List DataIO) : Prop where
  grants : Grants taken T T' (ds.map DataIO.key)
  belongs : ∀ d ∈ ds, T.Belongs d
  length : ∀ col dir, (T'.bank col dir).ports.length = (T.bank col dir).ports.length
  number : ∀ (col : ℤ) (dir : DMADirection) (i : ℕ),
    (T'.bank col dir).getPortnumFromPortIdx i = (T.bank col dir).getPortnumFromPortIdx i

variable {T T' T'' : Topology} {ds es : List DataIO}

/-- Nothing is handed out while the ports stay as they are. -/
theorem Handed.nil (h : ∀ col dir, T'.bank col dir = T.bank col dir) : Handed T T' [] := by
  refine ⟨Grants.none ?_, nofun, ?_, ?_⟩
  · intro k hk
    rw [taken, Set.mem_ofPred_eq, h]
    exact hk
  · intro col dir
    rw [h]
  · intro col dir i
    rw [h]

/-- **Runs compose.** -/
theorem Handed.trans (h : Handed T T' ds) (h' : Handed T' T'' es) : Handed T T'' (ds ++ es) := by
  refine ⟨?_, ?_, ?_, ?_⟩
  · rw [map_append]
    exact h.grants.trans h'.grants
  · intro d hd
    rcases mem_append.1 hd with hd | hd
    · exact h.belongs d hd
    · obtain ⟨ch, hch, hlt, hport⟩ := h'.belongs d hd
      rw [h.length] at hlt
      rw [h.number] at hport
      exact ⟨ch, hch, hlt, hport⟩
  · intro col dir
    rw [h'.length, h.length]
  · intro col dir i
    rw [h'.number, h.number]

theorem DMADirection.role_inj {dir' : DMADirection} (h : dir.ioType.role = dir'.ioType.role) :
    dir = dir' := by
  cases dir <;> cases dir' <;> first | rfl | cases h

theorem bank_setBank (T : Topology) (b : PortBank) (col' : ℤ) (dir' : DMADirection) :
    (T.setBank col dir b).bank col' dir' = if col' = col ∧ dir' = dir then b else T.bank col' dir' := by
  by_cases hc : col' = col
  · subst hc
    by_cases hd : dir' = dir
    · simp only [Topology.bank, Topology.setBank, update_self, hd, and_self, if_true]
    · have hrole : dir'.ioType.role ≠ dir.ioType.role := fun heq => hd (DMADirection.role_inj heq)
      simp only [Topology.bank, Topology.setBank, update_self, update_of_ne hrole, hd, and_false, if_false]
  · simp only [Topology.bank, Topology.setBank, update_of_ne hc, hc, false_and, if_false]

/-- What `_createDataIO` does on a shim tile that has a free port: it takes the first one. -/
theorem Topology.create_free (T : Topology) {p : Point} (hrow : p.r = 0) (channel : ℤ) {ch : ℕ}
    (hch : ch ∈ (T.bank p.c dir).indicesFree.head?) :
    ∃ b : PortBank, (T.bank p.c dir).indicesFree = ch :: b.indicesFree ∧
      b.ports.length = (T.bank p.c dir).ports.length ∧
      (∀ i, b.getPortnumFromPortIdx i = (T.bank p.c dir).getPortnumFromPortIdx i) ∧
      T.create p dir channel =
        (⟨T.nextId + 1, p.r, p.c, dir, channel, some ((T.bank p.c dir).getPortnumFromPortIdx ch)⟩,
          { T with nextId := T.nextId + 1 }.setBank p.c dir b) := by
  rcases (T.bank p.c dir).occupyport_cases (T.nextId + 1) with ⟨-, hfree⟩ | ⟨i, hsome, hfree⟩
  · rw [hfree] at hch
    cases hch
  · rw [hfree] at hch
    obtain rfl := Option.some.inj hch
    refine ⟨_, hfree, PortBank.length_mark .., fun i => PortBank.getPortnumFromPortIdx_mark .., ?_⟩
    unfold create
    simp only [hrow, if_true, hsome, PortBank.getPortnumFromPortIdx_mark]

/-- **A stream whose channel is the first free port** is handed out with the port of its channel. -/
theorem Topology.create_handed (T : Topology) {p : Point} (hrow : p.r = 0) {ch : ℕ}
    (hch : ch ∈ (T.bank p.c dir).indicesFree.head?) :
    Handed T (T.create p dir ch).2 [(T.create p dir ch).1] := by
  obtain ⟨b, hfree, hlen, hnum, hcreate⟩ := T.create_free hrow ch hch
  have hmem : ch ∈ (T.bank p.c dir).indicesFree := hfree ▸ mem_cons_self
  have hbank : ∀ col' dir', (T.create p dir ch).2.bank col' dir' =
      if col' = p.c ∧ dir' = dir then b else T.bank col' dir' := by
    rw [hcreate]
    exact bank_setBank { T with nextId := T.nextId + 1 } b
  rw [show (T.create p dir ch).1 = _ from congrArg Prod.fst hcreate]
  refine ⟨Grants.one (fun hheld => hheld ch hmem rfl) ?_, ?_, ?_, ?_⟩
  · -- of the free ports exactly the first is gone
    have hout := (nodup_cons.1 (hfree ▸ (T.bank p.c dir).nodup_indicesFree)).1
    ext ⟨col', dir', z⟩
    simp only [taken, Set.mem_ofPred_eq, hbank, Set.mem_insert_iff, DataIO.key, Prod.mk.injEq]
    by_cases hcase : col' = p.c ∧ dir' = dir
    · obtain ⟨rfl, rfl⟩ := hcase
      simp only [and_self, if_true, true_and, hfree, mem_cons, forall_eq_or_imp]
      constructor
      · intro h
        by_cases hz : z = ch
        · exact .inl hz
        · exact .inr ⟨hz, h⟩
      · rintro (rfl | ⟨-, h⟩) i hi
        · exact fun heq => hout (Int.ofNat.inj heq ▸ hi)
        · exact h i hi
    · rw [if_neg hcase]
      exact ⟨.inr, fun h => h.resolve_left fun heq => hcase ⟨heq.1, heq.2.1⟩⟩
  · intro d hd
    obtain rfl := mem_singleton.1 hd
    exact ⟨ch, rfl, (PortBank.mem_indicesFree.1 hmem).lt, rfl⟩
  · intro col' dir'
    rw [hbank]
    split
    · rename_i h
      rw [h.1, h.2, hlen]
    · rfl
  · intro col' dir' i
    rw [hbank]
    split
    · rename_i h
      rw [h.1, h.2, hnum]
    · rfl

theorem Topology.nearer_mem {dest : ℤ} : ∀ (l : List ShimTile) (found : Option ShimTile) (t : ShimTile),
    l.foldl (nearer dest) found = some t → t ∈ l ∨ found = some t := by
  intro l
  induction l with
  | nil => exact fun found t h => .inr h
  | cons s l ih =>
    intro found t h
    rcases ih _ t h with hmem | hfound
    · exact .inl (mem_cons_of_mem s hmem)
    · unfold nearer at hfound
      split at hfound
      · cases hfound
        exact .inl mem_cons_self
      · split at hfound
        · cases hfound
          exact .inl mem_cons_self
        · exact .inr hfound

theorem Topology.freeShimNoc_some {dest : ℤ} {direct : DMADirection} {ioId : ℤ} {ch : ℕ}
    (h : T.freeShimNoc dest direct ioId = some (col, ch, T')) : ∃ t ∈ T.shims, ∃ t', col = t.col ∧
      t.allocate direct (-1) ioId = some (ch, t') ∧ T' = T.setShim t.col t' := by
  unfold freeShimNoc at h
  dsimp only at h
  split at h
  · cases h
  case h_2 t ht =>
    split at h
    · cases h
    case h_2 c t' hal =>
      cases h
      rcases nearer_mem _ _ _ ht with hmem | hnone
      · exact ⟨t, (mem_filter.1 hmem).1, t', rfl, hal, rfl⟩
      · cases hnone

def ShimTile.channelsFree (dir : DMADirection) : List ℕ :=
  positions (fun ch => !ch.allocated) (t.channels dir)

theorem ShimTile.channels_setChannels (cs : List ChannelState) (dir dir' : DMADirection) :
    (t.setChannels cs dir).channels dir' = if dir' = dir then cs else t.channels dir' := by
  cases dir <;> cases dir' <;> rfl

/-- A request for any channel takes the first free one. -/
theorem ShimTile.allocate_any {t t' : ShimTile} {ioId : ℤ} {ch : ℕ}
    (h : t.allocate dir (-1) ioId = some (ch, t')) :
    t'.col = t.col ∧
      t.channelsFree dir = ch :: t'.channelsFree dir ∧
      ∀ dir' ≠ dir, t'.channelsFree dir' = t.channelsFree dir' := by
  unfold allocate at h
  split at h
  · cases h
  · rw [if_neg (by decide)] at h
    split at h
    · cases h
    case h_2 c hc =>
      cases h
      refine ⟨by cases dir <;> rfl, ?_, ?_⟩
      · rw [findIdx?_eq_head?] at hc
        obtain ⟨rest, hrest⟩ := head?_eq_some_iff.1 hc
        rw [channelsFree, channelsFree, channels_setChannels, if_pos rfl, set_eq_modify,
          positions_modify_head (fun _ => rfl) hrest, hrest]
      · intro dir' hne
        rw [channelsFree, channels_setChannels, if_neg hne]
        rfl

/-! ## Unique channels that match their ports -/

/-- A request that keeps channels and ports in step: a point names a shim tile and the first port
that is free there, and where the channel is left open, the first free channel of every shim tile is
the first free port. -/
def Topology.InStep (T : Topology) : Request → Prop
  | .near _ direct => ∀ t ∈ T.shims, ∀ ch ∈ (t.channelsFree direct).head?,
  ch ∈ (T.bank t.col direct).indicesFree.head?
  | .atPoint p direction channel => p.r = 0 ∧ ∃ ch ∈ (T.bank p.c direction).indicesFree.head?,
    channel = (ch : ℤ)

/-- Each request is in step with what is free before it. -/
def Topology.RunInStep : List Request → Topology → Prop
  | [], _ => True
  | r :: rest, T => T.InStep r ∧ Topology.RunInStep rest (T.answer r).2

theorem Topology.answer_handed {r : Request} (h : T.InStep r) :
    Handed T (T.answer r).2 (T.answer r).1.toList := by
  cases r with
  | near dest direct =>
    unfold answer createDataIO
    dsimp only
    split
    · exact Handed.nil fun _ _ => rfl
    case h_2 col ch T₂ hfound =>
      obtain ⟨t, ht, t', rfl, hal, rfl⟩ := freeShimNoc_some hfound
      have hsame : Handed T ({ T with lastdioid := T.lastdioid + 1 }.setShim t.col t') [] :=
        Handed.nil fun _ _ => rfl
      have hfirst : ch ∈ (t.channelsFree direct).head? := by
        rw [(ShimTile.allocate_any hal).2.1]
        rfl
      exact hsame.trans (create_handed _ rfl (h t ht ch hfirst))
  | atPoint p direction channel =>
    obtain ⟨hrow, ch, hch, rfl⟩ := h
    exact T.create_handed hrow hch

/-- **A run in step** hands out every stream with the port of its channel. -/
theorem Topology.run_handed {rs : List Request} (h : T.RunInStep rs) :
    Handed T (T.run rs).2 (T.run rs).1 := by
  induction rs generalizing T with
  | nil => exact Handed.nil fun _ _ => rfl
  | cons r rest ih => exact (answer_handed h.1).trans (ih h.2)

/-- Channels are unique, and so are ports; every stream has the port of its channel. -/
structure ShimSound (T : Topology) (ds : List DataIO) : Prop where
  channels : ds.Pairwise fun d e => (d.col, d.dir, d.channel) ≠ (e.col, e.dir, e.channel)
  hasPort : ∀ d ∈ ds, d.shimport.isSome
  ports : ds.Pairwise fun d e => d.col = e.col → d.dir = e.dir → d.shimport ≠ e.shimport
  belongs : ∀ d ∈ ds, T.Belongs d

theorem Handed.shimSound (h : Handed T T' ds) : ShimSound T ds := by
  have hchannels : ds.Pairwise fun d e => d.key ≠ e.key := pairwise_map.1 h.grants.nodup
  refine ⟨hchannels, ?_, ?_, h.belongs⟩
  · intro d hd
    obtain ⟨ch, -, -, hport⟩ := h.belongs d hd
    rw [hport]
    rfl
  · apply hchannels.imp_of_mem
    intro d e hd he hne hcol hdir hport
    obtain ⟨ch, hch, hlt, hd'⟩ := h.belongs d hd
    obtain ⟨ch', hch', hlt', he'⟩ := h.belongs e he
    rw [hd', he', hcol, hdir] at hport
    rw [hcol, hdir] at hlt
    have heq := PortBank.getPortnumFromPortIdx_inj hlt hlt' (Option.some.inj hport)
    apply hne
    rw [ DataIO.key, DataIO.key, hcol, hdir, hch, hch', heq]

/-- **Shim channels and ports.** In every run whose requests are in step with the free channels and
ports before them, the streams that are returned have unique channels and unique ports, and each has
the port of its channel. -/
theorem shim_sound (T : Topology) (rs : List Request) (h : T.RunInStep rs) : ShimSound T (T.run rs).1 :=
  (Topology.run_handed h).shimSound

/-- Free channels 0 and 1 in both directions on the tile of column 2, with the ports of the hardware. -/
def twoChannels : Topology where
  shims := [{ col := 2, mm2s := [{}, {}], s2mm := [{}, {}] }]
  partition := none
  south := fun _ role =>
    match role with
    | .master => ⟨[{ portNum := some 3 }, { portNum := some 7 }], by decide⟩
    | .slave => ⟨[{ portNum := some 1 }, { portNum := some 3 }], by decide⟩
  lastdioid := 0
  nextId := 0

/-- A point that names the channel after the one handed out. -/
theorem shim_sound_atPoint :
    ShimSound twoChannels (twoChannels.run [.near 2 .mm2s, .atPoint ⟨0, 2⟩ .mm2s 1]).1 := by
  refine shim_sound _ _ ⟨?_, ⟨rfl, 1, by decide +kernel, rfl⟩, trivial⟩
  intro t ht ch hch
  obtain rfl := mem_singleton.1 ht
  exact hch

/-- A channel that was handed out is given again at a point, and gets the port of the other channel. -/
theorem not_shimSound_atPoint :
    ¬ShimSound twoChannels (twoChannels.run [.near 2 .mm2s, .atPoint ⟨0, 2⟩ .mm2s 0]).1 := by
  intro h
  have htwice : ¬(twoChannels.run [.near 2 .mm2s, .atPoint ⟨0, 2⟩ .mm2s 0]).1.Pairwise
      fun d e => (d.col, d.dir, d.channel) ≠ (e.col, e.dir, e.channel) := by
    decide +kernel
  exact htwice h.channels

/-! ## Requests that leave the channel open -/

/-- On every shim tile the free channels are the free ports. -/
structure Topology.Matched (T : Topology) : Prop where
  cols : (T.shims.map ShimTile.col).Nodup
  free : ∀ t ∈ T.shims, ∀ dir, t.channelsFree dir = (T.bank t.col dir).indicesFree

theorem Topology.Matched.inStep (h : T.Matched) (dest : ℤ) (direct : DMADirection) :
    T.InStep (.near dest direct) := by
  intro t ht ch hch
  rw [h.free t ht] at hch
  exact hch

/-- A stream takes the first free channel of a tile and the first free port. -/
theorem Topology.Matched.near (h : T.Matched) (dest : ℤ) (direct : DMADirection) :
    (T.createDataIO dest direct).2.Matched := by
  unfold createDataIO
  dsimp only
  split
  · exact ⟨h.cols, h.free⟩
  case h_2 col ch T₂ hfound =>
    obtain ⟨t, ht, t', rfl, hal, rfl⟩ := freeShimNoc_some hfound
    obtain ⟨hcol, hfirst, hother⟩ := ShimTile.allocate_any hal
    have ht : t ∈ T.shims := ht
    have hport : (T.bank t.col direct).indicesFree = ch :: t'.channelsFree direct :=
      (h.free t ht direct).symm.trans hfirst
    have hhead : ch ∈ (T.bank t.col direct).indicesFree.head? := by
      rw [hport]
      rfl
    obtain ⟨b, hb, -, -, hcreate⟩ :=
      ({ T with lastdioid := T.lastdioid + 1 }.setShim t.col t').create_free (p := ⟨0, t.col⟩) rfl ch hhead
    have hrest : b.indicesFree = t'.channelsFree direct := (cons.inj (hb.symm.trans hport)).2
    rw [hcreate]
    constructor
    · have hcols : (T.shims.map fun s => if s.col = t.col then t' else s).map ShimTile.col =
          T.shims.map ShimTile.col := by
        rw [map_map]
        apply map_congr_left
        intro s _
        by_cases hs : s.col = t.col <;> simp [hs, hcol]
      exact hcols ▸ h.cols
    · intro s hs dir'
      obtain ⟨s₀, hs₀, rfl⟩ := mem_map.1
        (show s ∈ T.shims.map fun s => if s.col = t.col then t' else s from hs)
      rw [bank_setBank]
      by_cases heq : s₀.col = t.col
      · obtain rfl : s₀ = t := inj_on_of_nodup_map h.cols hs₀ ht heq
        rw [if_pos rfl, hcol]
        by_cases hdir : dir' = direct
        · rw [if_pos ⟨rfl, hdir⟩, hdir, hrest]
        · rw [if_neg (fun hcon => hdir hcon.2), hother dir' hdir]
          exact h.free s₀ hs₀ dir'
      · rw [if_neg heq, if_neg (fun hcon => heq hcon.1)]
        exact h.free s₀ hs₀ dir'

theorem Topology.Matched.runInStep (h : T.Matched) (rs : List (ℤ × DMADirection)) :
    T.RunInStep (rs.map fun r => .near r.1 r.2) := by
  induction rs generalizing T with
  | nil => trivial
  | cons r rest ih => exact ⟨h.inStep r.1 r.2, ih (h.near r.1 r.2)⟩

/-- **Requests that leave the channel open** are sound as long as free channels and free ports agree
at the start. -/
theorem shimSound_near (hT : T.Matched) (rs : List (ℤ × DMADirection)) :
    ShimSound T (T.run (rs.map fun r => .near r.1 r.2)).1 :=
  (Topology.run_handed (hT.runInStep rs)).shimSound

/-- Two streams out of the memory and one into it. -/
theorem shimSound_near_twoChannels : twoChannels.Matched ∧
    ShimSound twoChannels (twoChannels.run [.near 0 .mm2s, .near 5 .mm2s, .near 2 .s2mm]).1 := by
  have h : twoChannels.Matched := by
    refine ⟨by decide, fun t ht dir => ?_⟩
    obtain rfl := mem_singleton.1 ht
    cases dir <;> decide
  exact ⟨h, shimSound_near h [(0, .mm2s), (5, .mm2s), (2, .s2mm)]⟩

end AieHlc.Hw
