import AieHlc.Lower.Lockstep
import AieHlc.Lower.PortAgreement
import AieHlc.Word.Bits

/-!
# Kernel windows and core buffers

The kernel pass sizes the window of every port again, with the rules of the host's
core half but other special cases: halos count elements where the host counts
bytes, a channel-split view is divided by the tiles once more, and the budget is
ignored for elements below a byte.

* `kernelElems`, `kernelBufferSize`: what `analyzeKernelParams` declares.
* `CoreMemAllocator`, `emitCoreBufferAlloc`: the memory reserved for a flow's buffers.
* `hostElems`: the host's buffer of a port, in closed form (`lowerCore_elems`).
* `window_agrees_iff`: the ports whose window is the host's buffer, with room for it.
-/

namespace AieHlc.Lower

open List AieHlc.Word

/-! ## The kernel pass -/

/-- Elements of one vector of the kernel. -/
def vectorWidth : ℕ := 4

/-- Elements of a port, as the kernel pass counts them. -/
def kernelShare (op : FlowTransferOp) : ℕ :=
  let numCoreTiles := if op.coreTiles = 0 then 1 else op.coreTiles
  if op.type = "many_to_one" then op.memrefType.numElements / numCoreTiles else op.memrefType.numElements

variable (ps : BlueprintPassState)

/-- Elements of one round: inputs by K round and M round, outputs by sub-tile. -/
def kernelRound (op : FlowTransferOp) : ℕ :=
  let n := kernelShare op
  if op.shimIsSender then
    if 1 < ps.kRounds then
      if 0 < ps.tileM ∧ ps.tileM < ps.tileRows then n / ps.kRounds / (ps.tileRows / ps.tileM)
        else n / ps.kRounds
    else n
  else if 1 < outDivisor ps then n / outDivisor ps
  else n

def kernelElems (maxPingPongBytes : ℕ) (op : FlowTransferOp) : ℕ :=
  let n := kernelRound ps op
  let size := if n = 0 then 1 else n
  -- here elements below a byte have no size, and no budget
  let clamped := clampElements maxPingPongBytes (op.memrefType.elementTypeBitWidth / 8) size
  match if op.shimIsSender then lookupHalo ps.tensorInfo op.argIdx else none with
  | none => clamped
  | some h =>
    if 0 < spatialHaloBufSize ps.tensorInfo then spatialHaloBufSize ps.tensorInfo
    else if 1 < h.kRounds ∧ 0 < h.kSlice ∧ 0 < h.l2Slice then h.l2Slice * h.kSlice
    else clamped

def kernelBufferSize (maxPingPongBytes : ℕ) (op : FlowTransferOp) : ℕ :=
  let n := kernelElems ps maxPingPongBytes op / vectorWidth
  if n = 0 then 1 else n

/-! ## Core memory -/

structure CoreMemSlot where
  symbolName : String
  address : ℕ
  size : ℕ
deriving DecidableEq, Repr

/-- Buffers of a core tile, placed one after the other. Addresses are 32-bit. -/
structure CoreMemAllocator where
  baseAddr : ℕ := 0x78000
  totalSize : ℕ := 0x8000
  nextFree : ℕ := 0x78000
  allocations : List CoreMemSlot := []
deriving DecidableEq, Repr

namespace CoreMemAllocator

variable (al : CoreMemAllocator)

def slot? (name : String) : Option CoreMemSlot := al.allocations.find? fun s => s.symbolName = name

/-- `nextFree_`, rounded up to an alignment by `& ~(alignment - 1)`. -/
def alignUp (alignment : ℕ) : ℕ := u32 (al.nextFree + alignment - 1) &&& (2 ^ 32 - 1 - (alignment - 1))

/-- A buffer of this size can be placed. -/
def Fits (size alignment : ℕ) : Prop := u32 (al.alignUp alignment + size) ≤ u32 (al.baseAddr + al.totalSize)

instance (size alignment : ℕ) : Decidable (al.Fits size alignment) := inferInstanceAs (Decidable (_ ≤ _))

/-- The allocator with a new slot. -/
def place (name : String) (size alignment : ℕ) : CoreMemAllocator :=
  { al with
    allocations := al.allocations ++ [⟨name, al.alignUp alignment, size⟩]
    nextFree := u32 (al.alignUp alignment + size) }

/-- A name that has a slot keeps it, whatever the size asked for. -/
def allocate (name : String) (size alignment : ℕ) : Option ℕ × CoreMemAllocator :=
  match al.slot? name with
  | some s => (some s.address, al)
  | none =>
    if al.Fits size alignment then (some (al.alignUp alignment), al.place name size alignment)
    else (none, al)

end CoreMemAllocator

variable (al : CoreMemAllocator)

/-- The buffers of a flow: with depth 1 there is no pong. -/
def emitCoreBufferAlloc (maxPingPongBytes : ℕ) (isInput : Bool) (dirIdx : ℕ)
    (t : CoreTileCtx) : CoreMemAllocator :=
  let ping := (al.allocate (bufferPingName isInput dirIdx) (coreBufBytes maxPingPongBytes t) 32).2
  if t.ppDepth = 1 then ping
  else (ping.allocate (bufferPongName isInput dirIdx) (coreBufBytes maxPingPongBytes t) 32).2

/-! ## The host's buffer in closed form -/

/-- A second level of rows in a halo. -/
abbrev Halo.L2 (h : Halo) : Prop := 1 < h.l2Rounds ∧ 0 < h.l2Slice

abbrev Halo.KSplit (h : Halo) : Prop := 1 < h.kRounds ∧ 0 < h.kSlice

/-- A flow as the push and pull conversions make it: inputs go to many tiles, outputs come from many. -/
structure FlowTransferOp.IsLowered (m : Module) (op : FlowTransferOp) : Prop where
  tiles : 0 < op.coreTiles
  type : op.type = if op.shimIsSender then "one_to_many" else "many_to_one"
  /-- a tensor with a halo is a function argument -/
  arg : ∀ h, lookupHalo m.tensorInfo op.argIdx = some h → 0 ≤ op.argIdx
  row : 0 < op.memrefType.rowWidth

/-- Elements of one slab of a two-level halo. -/
def slabElems (op : FlowTransferOp) (h : Halo) : ℕ :=
  if h.KSplit then h.l2Slice * h.kSlice else h.l2Slice * op.memrefType.rowWidth

def hostElems (m : Module) (maxBytes : ℕ) (op : FlowTransferOp) : ℕ :=
  if op.shimIsSender then
    let window := clampElements maxBytes op.elemBytes (max 1 (kernelRound (enterPass m) op))
    match lookupHalo m.tensorInfo op.argIdx with
    | none => window
    | some h =>
      if h.L2 then slabElems op h
      else if 0 < spatialHaloBufSize m.tensorInfo then max 1 (spatialHaloBufSize m.tensorInfo / op.elemBytes)
      else window
  else coreRound m maxBytes op

variable {m : Module} {maxBytes : ℕ} {op : FlowTransferOp}

theorem shimCtx_l2 (hsend : op.shimIsSender = true) :
    (shimCtx m maxBytes op).l2CorePerRoundLen =
      match lookupHalo m.tensorInfo op.argIdx with
      | none => 0
      | some h => if h.L2 then slabElems op h * op.elemBytes else 0 := by
  obtain ⟨-, -, -, -, -, -, -, hl2⟩ := emitShimBd_keeps m (enterPass m) (paramsCtx m maxBytes op)
  refine hl2.trans ?_
  change (shimLens (enterPass m) (emitShimTileAndParams (enterPass m) { op := op })).2 = _
  rcases hl : lookupHalo m.tensorInfo op.argIdx with _ | h
  · have hl' : lookupHalo (enterPass m).tensorInfo op.argIdx = none := hl
    unfold shimLens emitShimTileAndParams
    simp only [hl', Bool.false_eq_true, false_and, if_false]
    split <;> rfl
  · have hl' : lookupHalo (enterPass m).tensorInfo op.argIdx = some h := hl
    obtain ⟨hslab, hbytes, hzero⟩ : (emitShimTileAndParams (enterPass m) { op := op }).isHaloSlab = true ∧
        (emitShimTileAndParams (enterPass m) { op := op }).elementSizeBytesShim = op.elemBytes ∧
        (emitShimTileAndParams (enterPass m) { op := op }).l2CorePerRoundLen = 0 := by
      unfold emitShimTileAndParams
      simp only [hl']
      split <;> exact ⟨rfl, rfl, rfl⟩
    have hop := (emitShimTileAndParams_spec op (enterPass m)).1
    -- a halo slab never takes the branch of the K rounds
    unfold shimLens
    simp only [hslab, hop, hsend, hl', hbytes, hzero, and_self, if_true, not_true_eq_false,
      false_and, if_false]
    by_cases h2 : h.L2
    · rw [if_pos h2, if_pos h2]
      by_cases hk : h.KSplit
      · rw [if_pos hk, slabElems, if_pos hk]
      · rw [if_neg hk, slabElems, if_neg hk]
    · rw [if_neg h2, if_neg h2]

theorem perKRoundElements_input (h : op.IsLowered m) (hsend : op.shimIsSender = true) :
    perKRoundElements (enterPass m) (shimCtx m maxBytes op) = kernelRound (enterPass m) op := by
  have hop := shimCtx_op m maxBytes op
  have htype : ¬op.type = "many_to_one" := by
    rw [h.type, if_pos hsend]
    decide
  have hshare : coreElements (enterPass m) (shimCtx m maxBytes op) = kernelShare op := by
    unfold coreElements kernelShare
    simp only [hop, numElements_div, htype, decide_false, Bool.false_and, Bool.false_eq_true, if_false]
  unfold perKRoundElements kernelRound
  simp only [hop, hshare, hsend, if_true]

theorem slabElems_pos (h : op.IsLowered m) {halo : Halo} (h2 : halo.L2) : 0 < slabElems op halo := by
  unfold slabElems
  split
  · rename_i hk
    exact Nat.mul_pos h2.2 hk.2
  · exact Nat.mul_pos h2.2 h.row

theorem coreTileSizes_input (h : op.IsLowered m) (hsend : op.shimIsSender = true) (ppDepth : ℤ) :
    let t := coreTileSizes (enterPass m) ppDepth (shimCtx m maxBytes op)
    (if t.hostSpatialHaloPort || t.kSplitSlabPort then t.pingPongBufferSize
      else clampElements maxBytes t.elementSizeBytes t.pingPongBufferSize) = hostElems m maxBytes op := by
  have hop := shimCtx_op m maxBytes op
  have hl2 := @shimCtx_l2 m maxBytes op hsend
  have hround := @perKRoundElements_input m maxBytes op h hsend
  have hmax : ∀ n : ℕ, (if n = 0 then 1 else n) = max 1 n := fun n => by split <;> omega
  have heb : elementSizeBytes op.memrefType.elementTypeBitWidth = op.elemBytes := rfl
  have htensor : (enterPass m).tensorInfo = m.tensorInfo := rfl
  unfold coreTileSizes hostElems
  simp only [hop, hround, hmax, heb, htensor, hsend, true_and, if_true]
  rcases hl : lookupHalo m.tensorInfo op.argIdx with _ | halo
  · rw [hl] at hl2
    simp [hl2]
  · have harg := h.arg halo hl
    rw [hl] at hl2
    by_cases h2 : halo.L2
    · -- a slab of the second level
      have hpos := slabElems_pos h h2
      simp only [if_pos h2] at hl2 ⊢
      simp [hl2, hpos, op.elemBytes_pos]
    · simp only [if_neg h2] at hl2 ⊢
      rw [hl2]
      by_cases hs : 0 < spatialHaloBufSize m.tensorInfo
      · simp [harg, hs]
      · simp [hs]

theorem hostElems_pos (h : op.IsLowered m) (maxBytes : ℕ) : 0 < hostElems m maxBytes op := by
  have hwindow : 0 < clampElements maxBytes op.elemBytes (max 1 (kernelRound (enterPass m) op)) :=
    clampElements_pos (by omega) _ _
  unfold hostElems
  split
  · rcases lookupHalo m.tensorInfo op.argIdx with _ | halo
    · exact hwindow
    · by_cases h2 : halo.L2
      · simp only [if_pos h2]
        exact slabElems_pos h h2
      · simp only [if_neg h2]
        split
        · omega
        · exact hwindow
  · exact coreRound_pos m maxBytes op

theorem shimCtx_l2_eq (hsend : op.shimIsSender = true)
    (hpos : 0 < (shimCtx m maxBytes op).l2CorePerRoundLen) :
    (shimCtx m maxBytes op).l2CorePerRoundLen = hostElems m maxBytes op * op.elemBytes := by
  have hl2 := @shimCtx_l2 m maxBytes op hsend
  unfold hostElems
  rcases hl : lookupHalo m.tensorInfo op.argIdx with _ | halo
  · rw [hl] at hl2
    simp only at hl2
    omega
  · rw [hl] at hl2
    by_cases h2 : halo.L2
    · simp only [if_pos h2] at hl2 ⊢
      rw [hl2, if_pos hsend]
    · simp only [if_neg h2] at hl2
      omega

/-- **The host's buffer of a port**: its elements, its descriptor's length and the memory asked for it. -/
theorem lowerCore_elems (h : op.IsLowered m) {ppDepth : ℤ} {core : CoreTileCtx}
    (hok : lowerCore m maxBytes ppDepth op = .ok core) :
    coreBdLen (shimCtx m maxBytes op) core = hostElems m maxBytes op * op.elemBytes ∧
      coreBufBytes maxBytes core = (hostElems m maxBytes op * op.elemBytes + 3) / 4 * 4 % 2 ^ 32 := by
  have hop := shimCtx_op m maxBytes op
  have hstep : computeCoreIterations (enterPass m) maxBytes (shimCtx m maxBytes op)
      (coreTileSizes (enterPass m) ppDepth (shimCtx m maxBytes op)) = .ok core := by
    unfold lowerCore at hok
    rw [lowerShim_eq] at hok
    exact hok
  obtain ⟨hsize, heb, hwin⟩ := computeCoreIterations_size hstep
  obtain ⟨heb', hle⟩ := coreTileSizes_window (enterPass m) ppDepth (shimCtx m maxBytes op)
  have hbytes : core.elementSizeBytes = op.elemBytes := by rw [heb, heb', hop]; rfl
  have hpp : core.pingPongBufferSize = hostElems m maxBytes op := by
    cases hsend : op.shimIsSender with
    | true => exact hsize.trans (coreTileSizes_input h hsend ppDepth)
    | false =>
      have hg : op.IsGather := ⟨hsend, by rw [h.type, hsend]; rfl⟩
      unfold hostElems
      rw [hsend, if_neg Bool.false_ne_true]
      exact (lowerCore_gather m maxBytes hg h.tiles hok).1
  have hpos := hostElems_pos h maxBytes
  constructor
  · have hne := Nat.mul_pos hpos op.elemBytes_pos
    have hlen : (if 0 < (shimCtx m maxBytes op).l2CorePerRoundLen ∧ op.shimIsSender = true then
        (shimCtx m maxBytes op).l2CorePerRoundLen else hostElems m maxBytes op * op.elemBytes) =
        hostElems m maxBytes op * op.elemBytes := by
      split
      · rename_i hl2
        exact shimCtx_l2_eq hl2.2 hl2.1
      · rfl
    unfold coreBdLen
    simp only [hop, hpp, hbytes, hlen]
    exact if_neg hne.ne'
  · -- the budget never leaves less than the buffer
    have hwindow : clampElements maxBytes core.elementSizeBytes core.perCorePerKRound ≤
        core.pingPongBufferSize := by
      rw [hsize, hwin, heb]
      split
      · exact (clampElements_le ..).trans hle
      · exact clampElements_mono _ _ hle
    unfold coreBufBytes
    simp only
    rw [show (if clampElements maxBytes core.elementSizeBytes core.perCorePerKRound <
      core.pingPongBufferSize then
      core.pingPongBufferSize else clampElements maxBytes core.elementSizeBytes core.perCorePerKRound) =
        core.pingPongBufferSize by split <;> omega, hpp, hbytes]

/-! ## Windows -/

/-- The budget is the same for both passes: elements of a byte or more, no budget, or within it. -/
def Budgeted (m : Module) (maxBytes : ℕ) (op : FlowTransferOp) : Prop :=
  8 ≤ op.memrefType.elementTypeBitWidth ∨ maxBytes = 0 ∨ kernelRound (enterPass m) op ≤ maxBytes

/-- A convolution output whose view holds one core's channels. -/
def ChannelSplit (m : Module) (op : FlowTransferOp) : Prop :=
  op.memrefType.rank = 3 ∧ (detectConvHalo m.tensorInfo).valid = true

/-- Where the window of an input with a halo is the host's buffer. -/
def HaloAgrees (m : Module) (maxBytes : ℕ) (op : FlowTransferOp) (h : Halo) : Prop :=
  if 0 < spatialHaloBufSize m.tensorInfo then
    if h.L2 then spatialHaloBufSize m.tensorInfo = slabElems op h else op.elemBytes = 1
  else if h.L2 then
    -- without bands, the round within the budget is a slab of whole rows
    h.KSplit ∨ clampElements maxBytes (op.memrefType.elementTypeBitWidth / 8)
      (max 1 (kernelRound (enterPass m) op)) =
      h.l2Slice * op.memrefType.rowWidth
  else if h.KSplit ∧ 0 < h.l2Slice then
    -- bands without a second level of rows: the host does not know them
    clampElements maxBytes op.elemBytes (max 1 (kernelRound (enterPass m) op)) = h.l2Slice * h.kSlice
  else Budgeted m maxBytes op

/-- The round is cut to the budget, or is as long where it is not cut. -/
def AtBudget (m : Module) (maxBytes : ℕ) (op : FlowTransferOp) : Prop :=
  if 8 ≤ op.memrefType.elementTypeBitWidth then
    0 < maxBytes / op.elemBytes ∧ maxBytes / op.elemBytes ≤ kernelRound (enterPass m) op
  else kernelRound (enterPass m) op = maxBytes

/-- Where the window of a port is the host's buffer. -/
@[mk_iff]
structure WindowAgrees (m : Module) (maxBytes : ℕ) (op : FlowTransferOp) : Prop where
  output : op.shimIsSender = false → (¬ChannelSplit m op ∨ op.coreTiles = 1) ∧ Budgeted m maxBytes op ∨
    -- divided once more, and yet cut by the budget
    ChannelSplit m op ∧ 1 < op.coreTiles ∧ AtBudget m maxBytes op
  plain : op.shimIsSender = true → lookupHalo m.tensorInfo op.argIdx = none → Budgeted m maxBytes op
  halo : op.shimIsSender = true → ∀ h, lookupHalo m.tensorInfo op.argIdx = some h → HaloAgrees m maxBytes op h

theorem elemBytes_cases (op : FlowTransferOp) :
    8 ≤ op.memrefType.elementTypeBitWidth ∧ op.elemBytes = op.memrefType.elementTypeBitWidth / 8 ∨
      op.memrefType.elementTypeBitWidth / 8 = 0 ∧ op.elemBytes = 1 := by
  unfold FlowTransferOp.elemBytes elementSizeBytes
  split
  · exact Or.inr ⟨by assumption, rfl⟩
  · exact Or.inl ⟨by omega, rfl⟩

theorem clampElements_zero (maxBytes n : ℕ) : clampElements maxBytes 0 n = n :=
  if_neg fun h => absurd h.2 (lt_irrefl 0)

theorem clampElements_one (maxBytes n : ℕ) :
    clampElements maxBytes 1 n = if maxBytes = 0 then n else min n maxBytes := by
  unfold clampElements
  dsimp only
  split_ifs <;> omega

theorem clampElements_agree_iff (maxBytes n : ℕ) :
    clampElements maxBytes (op.memrefType.elementTypeBitWidth / 8) (max 1 n) =
        clampElements maxBytes op.elemBytes (max 1 n) ↔
      8 ≤ op.memrefType.elementTypeBitWidth ∨ maxBytes = 0 ∨ n ≤ maxBytes := by
  rcases elemBytes_cases op with ⟨hw, he⟩ | ⟨hw, he⟩
  · rw [he]
    exact iff_of_true rfl (Or.inl hw)
  · rw [hw, he, clampElements_zero, clampElements_one]
    split <;> omega

theorem kernelElems_pos (maxBytes : ℕ) (op : FlowTransferOp) : 0 < kernelElems ps maxBytes op := by
  have hclamp : 0 < clampElements maxBytes (op.memrefType.elementTypeBitWidth / 8)
      (if kernelRound ps op = 0 then 1 else kernelRound ps op) := clampElements_pos (by split <;> omega) _ _
  unfold kernelElems
  dsimp only
  split
  · exact hclamp
  · split
    · assumption
    · split
      · rename_i h
        exact Nat.mul_pos h.2.2 h.2.1
      · exact hclamp

/-- A window of whole vectors loses nothing in the count of vectors. -/
theorem kernelBufferSize_mul (hvec : vectorWidth ∣ kernelElems (enterPass m) maxBytes op) :
    kernelBufferSize (enterPass m) maxBytes op * vectorWidth = kernelElems (enterPass m) maxBytes op := by
  have hpos : 0 < kernelElems (enterPass m) maxBytes op / vectorWidth :=
    Nat.div_pos (Nat.le_of_dvd (kernelElems_pos ..) hvec) (by decide)
  unfold kernelBufferSize
  simp only [if_neg hpos.ne']
  exact Nat.div_mul_cancel hvec

theorem kernelElems_plain (maxBytes : ℕ)
    (h : (if op.shimIsSender then lookupHalo ps.tensorInfo op.argIdx else none) = none) :
    kernelElems ps maxBytes op =
      clampElements maxBytes (op.memrefType.elementTypeBitWidth / 8) (max 1 (kernelRound ps op)) := by
  have hmax : (if kernelRound ps op = 0 then 1 else kernelRound ps op) = max 1 (kernelRound ps op) := by
    split <;> omega
  unfold kernelElems
  simp only [h, hmax]

theorem kernelRound_output (h : op.IsLowered m) (hsend : op.shimIsSender = false) :
    kernelRound (enterPass m) op = op.memrefType.numElements / op.coreTiles / outDivisor (enterPass m) := by
  have htype : op.type = "many_to_one" := by rw [h.type, hsend]; rfl
  have hpos := outDivisor_pos (enterPass m)
  unfold kernelRound kernelShare
  simp only [hsend, htype, Bool.false_eq_true, if_false, if_true, if_neg h.tiles.ne']
  split
  · rfl
  · rw [show outDivisor (enterPass m) = 1 by omega, Nat.div_one]

/-- A share divided by the tiles once more is less than the host's, and only the budget can hide it. -/
theorem channelSplit_iff {n p d w maxBytes e e' : ℕ} (hn : 1 < n) (he : 0 < e)
    (hw : w = clampElements maxBytes e' (max 1 (p / n / d))) (h4 : 4 ≤ w) :
    w = clampElements maxBytes e (max 1 (p / d)) ↔ w = maxBytes / e := by
  have hle : w ≤ max 1 (p / n / d) := hw ▸ clampElements_le ..
  have hdiv : p / n / d * n ≤ p / d := by
    rw [Nat.div_div_eq_div_mul, mul_comm n d, ← Nat.div_div_eq_div_mul]
    exact Nat.div_mul_le_self _ _
  have hlt : w < p / d := by
    have h2 : p / n / d * 2 ≤ p / n / d * n := Nat.mul_le_mul_left _ hn
    omega
  rcases Nat.eq_zero_or_pos (maxBytes / e) with h0 | hpos
  · have hraw : clampElements maxBytes e (max 1 (p / d)) = max 1 (p / d) := by
      unfold clampElements
      dsimp only
      rw [h0]
      split <;> rfl
    rw [hraw, h0]
    omega
  · rw [clampElements_eq he hpos]
    omega

/-- A window of at least a vector is the budget exactly if its round is at it. -/
theorem atBudget_iff (h4 : 4 ≤ clampElements maxBytes (op.memrefType.elementTypeBitWidth / 8)
    (max 1 (kernelRound (enterPass m) op))) :
    clampElements maxBytes (op.memrefType.elementTypeBitWidth / 8) (max 1 (kernelRound (enterPass m) op)) =
      maxBytes / op.elemBytes ↔ AtBudget m maxBytes op := by
  unfold AtBudget
  rcases elemBytes_cases op with ⟨hw, he⟩ | ⟨hw, he⟩
  · rw [← he] at h4 ⊢
    rw [if_pos hw]
    rcases Nat.eq_zero_or_pos (maxBytes / op.elemBytes) with h0 | hpos
    · rw [h0]
      omega
    · rw [clampElements_eq op.elemBytes_pos hpos] at h4 ⊢
      omega
  · rw [if_neg (by omega), he, Nat.div_one]
    rw [hw, clampElements_zero] at h4 ⊢
    omega

theorem four_le (hvec : vectorWidth ∣ kernelElems (enterPass m) maxBytes op) :
    4 ≤ kernelElems (enterPass m) maxBytes op := Nat.le_of_dvd (kernelElems_pos ..) hvec

theorem window_output_iff (h : op.IsLowered m) (hsend : op.shimIsSender = false)
    (hvec : vectorWidth ∣ kernelElems (enterPass m) maxBytes op) :
    kernelElems (enterPass m) maxBytes op = hostElems m maxBytes op ↔
      (¬ChannelSplit m op ∨ op.coreTiles = 1) ∧ Budgeted m maxBytes op ∨
        ChannelSplit m op ∧ 1 < op.coreTiles ∧ AtBudget m maxBytes op := by
  have hk : kernelElems (enterPass m) maxBytes op = _ :=
    kernelElems_plain (enterPass m) maxBytes (by rw [hsend]; rfl)
  have hhost : hostElems m maxBytes op = coreRound m maxBytes op := by
    unfold hostElems
    rw [hsend, if_neg Bool.false_ne_true]
  have hk' := hk
  rw [kernelRound_output h hsend] at hk
  have hplain : gatherShare m op = op.memrefType.numElements / op.coreTiles →
      (kernelElems (enterPass m) maxBytes op = hostElems m maxBytes op ↔ Budgeted m maxBytes op) := by
    intro hshare
    unfold Budgeted
    rw [hhost, coreRound, hshare, hk, kernelRound_output h hsend]
    exact clampElements_agree_iff ..
  by_cases hc : ChannelSplit m op
  · have hshare : gatherShare m op = op.memrefType.numElements := if_pos hc
    rcases Nat.lt_or_eq_of_le (show 1 ≤ op.coreTiles from h.tiles) with hT | hT
    · rw [hhost, coreRound, hshare, channelSplit_iff hT op.elemBytes_pos hk (four_le hvec), hk',
        atBudget_iff (hk' ▸ four_le hvec)]
      have hne : op.coreTiles ≠ 1 := by omega
      simp only [hc, hT, hne, not_true_eq_false, or_self, false_and, false_or, true_and]
    · rw [hplain (by rw [hshare, ← hT, Nat.div_one])]
      simp only [← hT, or_true, lt_irrefl, false_and, and_false, or_false, true_and]
  · rw [hplain (if_neg hc)]
    simp only [hc, not_false_eq_true, true_or, true_and, false_and, or_false]

theorem window_halo_iff (hsend : op.shimIsSender = true) {halo : Halo}
    (hl : lookupHalo m.tensorInfo op.argIdx = some halo)
    (hvec : vectorWidth ∣ kernelElems (enterPass m) maxBytes op) :
    kernelElems (enterPass m) maxBytes op = hostElems m maxBytes op ↔ HaloAgrees m maxBytes op halo := by
  have hmax : (if kernelRound (enterPass m) op = 0 then 1 else kernelRound (enterPass m) op) =
      max 1 (kernelRound (enterPass m) op) := by split <;> omega
  have htensor : (enterPass m).tensorInfo = m.tensorInfo := rfl
  have hk : kernelElems (enterPass m) maxBytes op =
      if 0 < spatialHaloBufSize m.tensorInfo then spatialHaloBufSize m.tensorInfo
      else if 1 < halo.kRounds ∧ 0 < halo.kSlice ∧ 0 < halo.l2Slice then halo.l2Slice * halo.kSlice
      else clampElements maxBytes (op.memrefType.elementTypeBitWidth / 8)
        (max 1 (kernelRound (enterPass m) op)) := by
    unfold kernelElems
    simp only [htensor, hsend, if_true, hl, hmax]
  unfold HaloAgrees hostElems
  rw [if_pos hsend, hl]
  simp only
  by_cases hs : 0 < spatialHaloBufSize m.tensorInfo
  · rw [if_pos hs] at hk
    rw [if_pos hs, if_pos hs]
    split
    · rw [hk]
    · -- a buffer size in elements against one in bytes
      have h4 := four_le hvec
      rw [hk] at h4 ⊢
      constructor
      · intro heq
        by_contra hne
        have he := op.elemBytes_pos
        have hlt : spatialHaloBufSize m.tensorInfo / op.elemBytes < spatialHaloBufSize m.tensorInfo :=
          Nat.div_lt_self hs (by omega)
        omega
      · intro he
        rw [he, Nat.div_one]
        omega
  · rw [if_neg hs] at hk
    rw [if_neg hs, if_neg hs]
    by_cases h2 : halo.L2
    · rw [if_pos h2, if_pos h2]
      by_cases hks : halo.KSplit
      · rw [hk, if_pos ⟨hks.1, hks.2, h2.2⟩, slabElems, if_pos hks]
        exact iff_of_true rfl (Or.inl hks)
      · rw [hk, if_neg fun hc => hks ⟨hc.1, hc.2.1⟩, slabElems, if_neg hks, or_iff_right hks]
    · rw [if_neg h2, if_neg h2]
      by_cases hks : halo.KSplit ∧ 0 < halo.l2Slice
      · rw [if_pos ⟨hks.1.1, hks.1.2, hks.2⟩] at hk
        rw [if_pos hks, hk]
        exact eq_comm
      · rw [if_neg fun hc => hks ⟨⟨hc.1, hc.2.1⟩, hc.2.2⟩] at hk
        rw [if_neg hks, hk]
        exact clampElements_agree_iff ..

/-- **Windows**: the kernel's elements are the host's exactly for these ports. -/
theorem kernelElems_eq_iff (h : op.IsLowered m) (hvec : vectorWidth ∣ kernelElems (enterPass m) maxBytes op) :
    kernelElems (enterPass m) maxBytes op = hostElems m maxBytes op ↔ WindowAgrees m maxBytes op := by
  rw [windowAgrees_iff]
  cases hsend : op.shimIsSender with
  | false =>
    simp only [Bool.false_eq_true, false_implies, forall_const, and_true]
    exact window_output_iff h hsend hvec
  | true =>
    simp only [Bool.true_eq_false, false_implies, forall_const, true_and]
    rcases hl : lookupHalo m.tensorInfo op.argIdx with _ | halo
    · have hport : (if op.shimIsSender then lookupHalo (enterPass m).tensorInfo op.argIdx
          else none) = none := by
        rw [if_pos hsend]
        exact hl
      simp only [reduceCtorEq, false_implies, forall_const, implies_true, and_true]
      unfold Budgeted hostElems
      rw [if_pos hsend, hl, kernelElems_plain (enterPass m) maxBytes hport]
      exact clampElements_agree_iff ..
    · simp only [reduceCtorEq, false_implies, Option.some.injEq, forall_eq', true_and]
      exact window_halo_iff hsend hl hvec

/-! ## Memory -/

namespace CoreMemAllocator

variable (al : CoreMemAllocator)

theorem slot?_place {name : String} (h : al.slot? name = none) (size alignment : ℕ) :
    (al.place name size alignment).slot? name = some ⟨name, al.alignUp alignment, size⟩ := by
  have hnone : al.allocations.find? (fun s => decide (s.symbolName = name)) = none := h
  simp [slot?, place, find?_append, hnone]

theorem slot?_allocate (name : String) (size alignment : ℕ) :
    (al.allocate name size alignment).2.slot? name =
      match al.slot? name with
      | some s => some s
      | none => if al.Fits size alignment then some ⟨name, al.alignUp alignment, size⟩ else none := by
  unfold allocate
  rcases hs : al.slot? name with _ | s
  · simp only
    split
    · exact al.slot?_place hs size alignment
    · exact hs
  · exact hs

theorem slot?_allocate_of_ne {name other : String} (h : name ≠ other) (size alignment : ℕ) :
    (al.allocate other size alignment).2.slot? name = al.slot? name := by
  unfold allocate
  rcases al.slot? other with _ | s
  · simp only
    split
    · simp [slot?, place, find?_append, h.symm]
    · rfl
  · rfl

/-- A slot of at least `len` bytes. -/
def Holds (name : String) (len : ℕ) : Prop := ∃ s, al.slot? name = some s ∧ len ≤ s.size

/-- Room for a buffer of `len` bytes: an old slot that is large enough, or space for a new one, with a size of
whole words below `2^32`. -/
def Room (name : String) (len : ℕ) : Prop :=
  (∀ s, al.slot? name = some s → len ≤ s.size) ∧
    (al.slot? name = none → len + 3 < 2 ^ 32 ∧ al.Fits ((len + 3) / 4 * 4) 32)

theorem holds_allocate_iff (name : String) (len : ℕ) :
    (al.allocate name ((len + 3) / 4 * 4 % 2 ^ 32) 32).2.Holds name len ↔ al.Room name len := by
  unfold Holds Room
  rw [slot?_allocate]
  rcases al.slot? name with _ | s
  · simp only [reduceCtorEq, false_implies, implies_true, true_and, forall_const]
    by_cases hlt : len + 3 < 2 ^ 32
    · have hmod : (len + 3) / 4 * 4 % 2 ^ 32 = (len + 3) / 4 * 4 := Nat.mod_eq_of_lt (by omega)
      rw [hmod]
      constructor
      · rintro ⟨s, hs, -⟩
        split at hs
        · rename_i hfit
          exact ⟨hlt, hfit⟩
        · cases hs
      · rintro ⟨-, hfit⟩
        exact ⟨_, if_pos hfit, by simp only; omega⟩
    · -- the size is truncated, and too small
      refine iff_of_false ?_ fun h => hlt h.1
      rintro ⟨s, hs, hle⟩
      split at hs
      · obtain rfl := Option.some.inj hs
        simp only at hle
        omega
      · cases hs
  · simp

end CoreMemAllocator

/-- Each buffer of a flow has a slot that holds its descriptor. -/
def BuffersHeld (maxBytes : ℕ) (isInput : Bool) (dirIdx : ℕ) (core : CoreTileCtx)
    (len : ℕ) : Prop :=
  (emitCoreBufferAlloc al maxBytes isInput dirIdx core).Holds (bufferPingName isInput dirIdx) len ∧
    (core.ppDepth ≠ 1 → (emitCoreBufferAlloc al maxBytes isInput dirIdx core).Holds
      (bufferPongName isInput dirIdx) len)

/-- Room for the buffers of a flow, the pong buffer after the ping buffer. -/
def BuffersRoom (isInput : Bool) (dirIdx : ℕ) (core : CoreTileCtx) (len : ℕ) : Prop :=
  al.Room (bufferPingName isInput dirIdx) len ∧
    (core.ppDepth ≠ 1 →
      (al.allocate (bufferPingName isInput dirIdx) ((len + 3) / 4 * 4 % 2 ^ 32) 32).2.Room
        (bufferPongName isInput dirIdx) len)

theorem buffersHeld_iff (b : Bool) (i : ℕ) {core : CoreTileCtx} {len : ℕ}
    (hsize : coreBufBytes maxBytes core = (len + 3) / 4 * 4 % 2 ^ 32) :
    BuffersHeld al maxBytes b i core len ↔ BuffersRoom al b i core len := by
  unfold BuffersHeld BuffersRoom emitCoreBufferAlloc
  rw [hsize]
  by_cases hpp : core.ppDepth = 1
  · simp only [hpp, ne_eq, not_true_eq_false, false_implies, and_true, if_true]
    exact al.holds_allocate_iff _ _
  · have hping : ∀ al' : CoreMemAllocator, ∀ size, (al'.allocate (bufferPongName b i) size 32).2.Holds
        (bufferPingName b i) len ↔ al'.Holds (bufferPingName b i) len := by
      intro al' size
      unfold CoreMemAllocator.Holds
      rw [al'.slot?_allocate_of_ne ping_ne_pong]
    simp only [hpp, ne_eq, not_false_eq_true, forall_const, if_false]
    rw [hping, al.holds_allocate_iff, CoreMemAllocator.holds_allocate_iff]

/-- **Windows and buffers.** Where the host lowers a port and the kernel's window is whole vectors,
the window is the host's descriptor and its slots hold it exactly for these ports and memories. -/
theorem window_agrees_iff (h : op.IsLowered m) {ppDepth : ℤ} {core : CoreTileCtx}
    (hok : lowerCore m maxBytes ppDepth op = .ok core)
    (hvec : vectorWidth ∣ kernelElems (enterPass m) maxBytes op) (al : CoreMemAllocator) (dirIdx : ℕ) :
    (kernelBufferSize (enterPass m) maxBytes op * vectorWidth * op.elemBytes =
        coreBdLen (shimCtx m maxBytes op) core ∧
      BuffersHeld al maxBytes op.shimIsSender dirIdx core (coreBdLen (shimCtx m maxBytes op) core)) ↔
      WindowAgrees m maxBytes op ∧
        BuffersRoom al op.shimIsSender dirIdx core (hostElems m maxBytes op * op.elemBytes) := by
  obtain ⟨hlen, hbuf⟩ := lowerCore_elems h hok
  have hwindow := kernelBufferSize_mul hvec
  rw [hlen, hwindow, Nat.mul_left_inj op.elemBytes_pos.ne', kernelElems_eq_iff h hvec,
    buffersHeld_iff al _ _ hbuf]

/-- An input of 4 by 8 bytes, for two tiles. -/
def bytesInput : FlowTransferOp where
  shimIsSender := true
  type := "one_to_many"
  coreTiles := 2
  dataId := some 0
  argIdx := 0
  memrefType := ⟨[4, 8], 8⟩
  shimDims := none

/-- An input without halo, in an empty memory. -/
theorem window_agrees_bytes :
    ∃ core, lowerCore (subTiled none 4 4 4 4) 4096 2 bytesInput = .ok core ∧
      kernelBufferSize (enterPass (subTiled none 4 4 4 4)) 4096 bytesInput * vectorWidth *
      bytesInput.elemBytes =
        coreBdLen (shimCtx (subTiled none 4 4 4 4) 4096 bytesInput) core ∧
      BuffersHeld {} 4096 true 0 core (coreBdLen (shimCtx (subTiled none 4 4 4 4) 4096 bytesInput) core) := by
  have hcore : lowerCore (subTiled none 4 4 4 4) 4096 2 bytesInput =
      .ok ⟨1, 32, 32, 2, 32, false, false, 1⟩ := by
    unfold lowerCore
    rw [lowerShim_eq]
    rfl
  have hlow : bytesInput.IsLowered (subTiled none 4 4 4 4) :=
    ⟨by decide, rfl, fun _ h => (by cases h), by decide⟩
  refine ⟨_, hcore, (window_agrees_iff hlow hcore (by decide) {} 0).2 ⟨⟨?_, ?_, ?_⟩, ?_, ?_⟩⟩
  · intro h
    cases h
  · exact fun _ _ => Or.inl (by decide)
  · intro _ _ h
    cases h
  · exact ⟨fun _ h => (by cases h), fun _ => (by decide)⟩
  · intro _
    have hnone : (CoreMemAllocator.allocate {} (bufferPingName true 0) 32 32).2.slot?
        (bufferPongName true 0) = none :=
      CoreMemAllocator.slot?_allocate_of_ne {} (Ne.symm ping_ne_pong) 32 32
    refine ⟨fun s h => ?_, fun _ => (by decide)⟩
    have hbad := hnone.symm.trans h
    cases hbad

/-- A module whose first tensor has a halo of 16 elements in two width chunks. -/
def haloModule : Module where
  fullconnectAuto := some 0
  iterPolicy := none
  partitionTiling := {}
  kernelTiling := {}
  tensorInfo := [(0, { halo := some { slice := 2, step := 2, wRounds := 2, bufSize := 16 } })]

/-- A halo input of 16-bit elements, and a channel-split output of two tiles. -/
def haloInput : FlowTransferOp where
  shimIsSender := true
  type := "one_to_many"
  coreTiles := 2
  dataId := some 0
  argIdx := 0
  memrefType := ⟨[4, 8], 16⟩
  shimDims := none

def channelOutput : FlowTransferOp where
  shimIsSender := false
  type := "many_to_one"
  coreTiles := 2
  dataId := some 1
  argIdx := 1
  memrefType := ⟨[2, 2, 4], 8⟩
  shimDims := none

theorem lowerCore_haloInput :
    lowerCore haloModule 4096 2 haloInput = .ok ⟨2, 32, 8, 2, 8, true, false, 1⟩ := by
  unfold lowerCore
  rw [lowerShim_eq]
  rfl

theorem lowerCore_channelOutput :
    lowerCore haloModule 4096 2 channelOutput = .ok ⟨1, 16, 16, 2, 16, false, false, 1⟩ := by
  unfold lowerCore
  rw [lowerShim_eq]
  rfl

/-- The window of the one is twice the host's buffer, that of the other half of it. -/
theorem window_disagrees :
    (∃ core, lowerCore haloModule 4096 2 haloInput = .ok core ∧
      kernelBufferSize (enterPass haloModule) 4096 haloInput * vectorWidth * haloInput.elemBytes = 32 ∧
        coreBdLen (shimCtx haloModule 4096 haloInput) core = 16) ∧
      ∃ core, lowerCore haloModule 4096 2 channelOutput = .ok core ∧
        kernelBufferSize (enterPass haloModule) 4096 channelOutput * vectorWidth *
        channelOutput.elemBytes = 8 ∧
          coreBdLen (shimCtx haloModule 4096 channelOutput) core = 16 := by
  have hin : haloInput.IsLowered haloModule := ⟨by decide, rfl, fun _ _ => (by decide), by decide⟩
  have hout : channelOutput.IsLowered haloModule := ⟨by decide, rfl, fun _ _ => (by decide), by decide⟩
  refine ⟨⟨_, lowerCore_haloInput, by decide, ?_⟩, _, lowerCore_channelOutput, by decide, ?_⟩
  · rw [(lowerCore_elems hin lowerCore_haloInput).1]
    decide
  · rw [(lowerCore_elems hout lowerCore_channelOutput).1]
    decide

end AieHlc.Lower
