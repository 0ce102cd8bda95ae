import AieHlc.Lower.Schedule

/-!
# Host lowering of one flow: core tiles

The core half of the flow-transfer conversion: how many elements one DMA round of a
core tile holds, how often it is armed, and the length of its descriptors. It runs
on the context the shim half leaves behind. Every core tile of a flow gets the same
sizes; what differs from tile to tile (position, packet id, BD ids) is left out.

* `perKRoundElements`: what one kernel window holds, before buffers are considered.
* `emitCoreTileParams`, `computeCoreIterations`: buffer size and rounds.
* `coreBdLen`, `coreBufBytes`: the descriptor's length and the memory reserved for it.
-/

namespace AieHlc.Lower

/-- Sizes of one core tile of a flow. -/
structure CoreTileCtx where
  elementSizeBytes : ℕ
  perCoreElements : ℕ
  perCorePerKRound : ℕ
  ppDepth : ℤ
  pingPongBufferSize : ℕ
  hostSpatialHaloPort : Bool
  kSplitSlabPort : Bool
  numIterations : ℕ
deriving DecidableEq, Repr

/-- Rounds of one dimension of a tiling. -/
def subRounds (tile full : ℕ) : ℕ := if 0 < tile ∧ tile < full then full / tile else 1

variable (ps : BlueprintPassState)

/-- Elements of a core's share: the whole partition, or one tile of a gather. -/
def coreElements (c : FlowLoweringCtx) : ℕ :=
  let eb := elementSizeBytes c.op.memrefType.elementTypeBitWidth
  let fullPartitionElements := c.op.memrefType.numElements * eb / eb
  let group2ConvOutput := decide (c.op.type = "many_to_one" ∧ c.op.memrefType.rank = 3) &&
    (detectConvHalo ps.tensorInfo).valid
  if decide (c.op.type = "many_to_one") && !group2ConvOutput then fullPartitionElements / c.numCoreTiles
  else fullPartitionElements

/-- How many windows of an output make up a core's share. -/
def outDivisor : ℕ :=
  let d := subRounds ps.tileM ps.tileRows * subRounds ps.tileN ps.tileCols
  let outRounds := ps.kernelTiling.outRounds
  if d < outRounds then outRounds else d

/-- Elements of one kernel window: inputs by K round and M round, outputs by sub-tile. -/
def perKRoundElements (c : FlowLoweringCtx) : ℕ :=
  let n := coreElements ps c
  if c.op.shimIsSender then
    if 1 < ps.kRounds then
      -- both inputs are divided by the rounds of M
      if 0 < ps.tileM ∧ ps.tileM < ps.tileRows then n / ps.kRounds / (ps.tileRows / ps.tileM)
      else n / ps.kRounds
    else n
  else if 1 < outDivisor ps then n / outDivisor ps
  else n

/-- The sizes before the ping-pong budget is applied. -/
def coreTileSizes (ppDepth : ℤ) (c : FlowLoweringCtx) : CoreTileCtx :=
  let eb := elementSizeBytes c.op.memrefType.elementTypeBitWidth
  let n := perKRoundElements ps c
  let t : CoreTileCtx :=
    { elementSizeBytes := eb
      perCoreElements := coreElements ps c
      perCorePerKRound := n
      ppDepth := ppDepth
      pingPongBufferSize := if n = 0 then 1 else n
      hostSpatialHaloPort := false
      kSplitSlabPort := false
      numIterations := 0 }
  -- a spatial-halo input is received whole
  let t :=
    let haloBufSize := spatialHaloBufSize ps.tensorInfo
    if c.op.shimIsSender ∧ 0 ≤ c.op.argIdx ∧ (lookupHalo ps.tensorInfo c.op.argIdx).isSome ∧
      0 < haloBufSize then
      let slab := if haloBufSize / eb = 0 then 1 else haloBufSize / eb
      { t with pingPongBufferSize := slab, perCorePerKRound := slab, hostSpatialHaloPort := true }
    else t
  -- a K-split input by one slab a round
  let slabElems := c.l2CorePerRoundLen / eb
  if c.op.shimIsSender ∧ 0 < c.l2CorePerRoundLen ∧ 0 < slabElems then
    { t with pingPongBufferSize := slabElems, perCorePerKRound := slabElems, kSplitSlabPort := true }
  else t

/-- Elements a buffer may hold under the ping-pong budget. -/
def clampElements (maxPingPongBytes elementBytes n : ℕ) : ℕ :=
  if 0 < maxPingPongBytes ∧ 0 < elementBytes then
    let maxElements := maxPingPongBytes / elementBytes
    if 0 < maxElements ∧ maxElements < n then maxElements else n
  else n

theorem clampElements_eq {maxBytes e : ℕ} (he : 0 < e) (h : 0 < maxBytes / e) (n : ℕ) :
    clampElements maxBytes e n = min n (maxBytes / e) := by
  have hmax : 0 < maxBytes := Nat.pos_of_ne_zero fun h0 => by simp [h0] at h
  unfold clampElements
  rw [if_pos ⟨hmax, he⟩]
  simp only [h, true_and]
  split <;> omega

theorem clampElements_le (maxBytes e n : ℕ) : clampElements maxBytes e n ≤ n := by
  unfold clampElements
  dsimp only
  split_ifs <;> omega

theorem clampElements_mono (maxBytes e : ℕ) {n k : ℕ} (h : n ≤ k) :
    clampElements maxBytes e n ≤ clampElements maxBytes e k := by
  unfold clampElements
  dsimp only
  split_ifs <;> omega

theorem clampElements_pos {n : ℕ} (h : 0 < n) (maxBytes e : ℕ) : 0 < clampElements maxBytes e n := by
  unfold clampElements
  dsimp only
  split_ifs <;> omega

variable (maxPingPongBytes : ℕ)

/-- Buffer clamp and the number of DMA rounds. -/
def computeCoreIterations (c : FlowLoweringCtx) (t : CoreTileCtx) :
    Except String CoreTileCtx :=
  let size :=
    if t.hostSpatialHaloPort || t.kSplitSlabPort then t.pingPongBufferSize
    else clampElements maxPingPongBytes t.elementSizeBytes t.pingPongBufferSize
  let n := (t.perCorePerKRound + size - 1) / size
  if t.ppDepth = 1 ∧ 1 < n then
    .error ("pp_depth=1 (single buffer) incompatible with numIterations=" ++ toString n ++ " (buffer_size=" ++
      toString size ++ " < perCorePerKRound=" ++ toString t.perCorePerKRound ++
      "). Single-buffer DMA cannot re-arm for multiple rounds. " ++
      "Set pp_depth>=2 to enable ping-pong BD chaining, or " ++
      "increase max_buffer_bytes to fit the full per-k-round data.")
  else
    let n := if c.op.shimIsSender ∧ 1 < ps.kRounds then n * ps.kRounds else n
    -- the rounds of a K-split slab come from its halo
    let n :=
      match if c.op.shimIsSender ∧ 0 < c.l2CorePerRoundLen then lookupHalo ps.tensorInfo c.op.argIdx
        else none with
      | none => n
      | some h =>
        let total := (if 0 < h.l2Rounds then h.l2Rounds else 1) * (if 0 < h.kRounds then h.kRounds else 1)
        if 1 < total then total else n
    .ok { t with pingPongBufferSize := size, numIterations := n }

theorem computeCoreIterations_size {ps : BlueprintPassState} {maxBytes : ℕ} {c : FlowLoweringCtx}
    {t t' : CoreTileCtx} (h : computeCoreIterations ps maxBytes c t = .ok t') :
    t'.pingPongBufferSize = (if t.hostSpatialHaloPort || t.kSplitSlabPort then t.pingPongBufferSize
      else clampElements maxBytes t.elementSizeBytes t.pingPongBufferSize) ∧
      t'.elementSizeBytes = t.elementSizeBytes ∧ t'.perCorePerKRound = t.perCorePerKRound := by
  unfold computeCoreIterations at h
  dsimp only at h
  generalize (if (t.hostSpatialHaloPort || t.kSplitSlabPort) = true then t.pingPongBufferSize
    else clampElements maxBytes t.elementSizeBytes t.pingPongBufferSize) = size at h ⊢
  split at h
  · cases h
  · obtain rfl := Except.ok.inj h
    exact ⟨rfl, rfl, rfl⟩

theorem coreTileSizes_window (ppDepth : ℤ) (c : FlowLoweringCtx) :
    (coreTileSizes ps ppDepth c).elementSizeBytes = elementSizeBytes c.op.memrefType.elementTypeBitWidth ∧
      (coreTileSizes ps ppDepth c).perCorePerKRound ≤ (coreTileSizes ps ppDepth c).pingPongBufferSize := by
  have hle : perKRoundElements ps c ≤ if perKRoundElements ps c = 0 then 1 else perKRoundElements ps c := by
    split <;> omega
  unfold coreTileSizes
  dsimp only
  generalize (if perKRoundElements ps c = 0 then 1 else perKRoundElements ps c) = size at hle ⊢
  split
  · exact ⟨by split <;> rfl, le_rfl⟩
  · split
    · exact ⟨rfl, le_rfl⟩
    · exact ⟨rfl, hle⟩

theorem coreTileSizes_receiver (ppDepth : ℤ) {c : FlowLoweringCtx} (h : c.op.shimIsSender = false) :
    coreTileSizes ps ppDepth c =
      { elementSizeBytes := elementSizeBytes c.op.memrefType.elementTypeBitWidth
        perCoreElements := coreElements ps c
        perCorePerKRound := perKRoundElements ps c
        ppDepth := ppDepth
        pingPongBufferSize := max 1 (perKRoundElements ps c)
        hostSpatialHaloPort := false
        kSplitSlabPort := false
        numIterations := 0 } := by
  have hmax : (if perKRoundElements ps c = 0 then 1 else perKRoundElements ps c) =
      max 1 (perKRoundElements ps c) := by
    split <;> omega
  unfold coreTileSizes
  simp only [h, hmax, Bool.false_eq_true, false_and, if_false]

/-- Sizes and rounds of the core tiles of a flow. -/
def emitCoreTileParams (ppDepth : ℤ) (c : FlowLoweringCtx) : Except String CoreTileCtx :=
  computeCoreIterations ps maxPingPongBytes c (coreTileSizes ps ppDepth c)

def coreBdLen (c : FlowLoweringCtx) (t : CoreTileCtx) : ℕ :=
  let len := if 0 < c.l2CorePerRoundLen ∧ c.op.shimIsSender then c.l2CorePerRoundLen
    else t.pingPongBufferSize * t.elementSizeBytes
  if len = 0 then 1 else len

/-- Bytes the allocator is asked for, for each buffer of the flow: whole words, in a 32-bit count. -/
def coreBufBytes (t : CoreTileCtx) : ℕ :=
  let n := clampElements maxPingPongBytes t.elementSizeBytes t.perCorePerKRound
  let n := if n < t.pingPongBufferSize then t.pingPongBufferSize else n
  (n * t.elementSizeBytes + 3) / 4 * 4 % 2 ^ 32

/-- The context the core half starts from: the shim descriptors are emitted. -/
def lowerCore (m : Module) (maxPingPongBytes : ℕ) (ppDepth : ℤ) (op : FlowTransferOp) :
    Except String CoreTileCtx :=
  match lowerShim m maxPingPongBytes op with
  | .error e => .error e
  | .ok c => emitCoreTileParams (enterPass m) maxPingPongBytes ppDepth c

end AieHlc.Lower
