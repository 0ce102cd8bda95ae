import AieHlc.Gemm.Tiling
import AieHlc.Lower.Schedule

/-!
# The lowering of a GEMM's inputs

Each input of a GEMM under `fullconnect_auto` is one flow from the shim to the cores. Length,
iteration, host loop and repeat count of its transfers come from the host pass, and each asks its
own question about sub-tiles.

* `GemmModule`: a module with a tiling and without halo; `inputFlow`: the flow of an input.
* `sendBd`, `sendRepeat`: the descriptor of one iteration of the host loop, and its repeats.
* `lowerFlow_input`: **the lowering of an input** is one start for each outer sub-tile.
-/

namespace AieHlc.Gemm

open List AieHlc.Dma AieHlc.Word AieHlc.Lower

/-- Input A comes second in the order of the push operations. -/
def Input.dataId : Input → ℤ
  | .A => 1
  | .B => 0

/-- The input whose sub-tiles the policy's outer loop runs over. -/
def outerInput (nOuter : Bool) : Input := if nOuter then .B else .A

def innerInput (nOuter : Bool) : Input := if nOuter then .A else .B

def Sizes.scalars (t : Sizes) : GemmTilingScalars where
  tileM := t.tileM
  tileRows := t.tileRows
  tileN := t.tileN
  tileCols := t.tileCols
  effectiveK := t.effectiveK
  fullK := t.fullK
  kRounds := t.kRounds
  found := true

/-- A module of a GEMM with sizes `t`: full connection, no halo. -/
structure GemmModule (t : Sizes) where
  module : Module
  fullconnect : module.fullconnectAuto = some 1
  tiling : module.partitionTiling = t.scalars
  plain : ∀ e ∈ module.tensorInfo, e.2.halo = none

/-- A module with the sizes and nothing else. -/
def Sizes.gemmModule (t : Sizes) : GemmModule t where
  module :=
    { fullconnectAuto := some 1, iterPolicy := none, partitionTiling := t.scalars,
      kernelTiling := {}, tensorInfo := [] }
  fullconnect := rfl
  tiling := rfl
  plain := by simp

/-- The flow that sends an input of `w`-bit elements from the shim to `coreTiles` cores. -/
def inputFlow (t : Sizes) (w : ℕ) (x : Input) (coreTiles : ℕ) (argIdx : ℤ) (dims : Option (List Dim)) :
    FlowTransferOp where
  shimIsSender := true
  type := "one_to_many"
  coreTiles := coreTiles
  dataId := some x.dataId
  argIdx := argIdx
  memrefType := ⟨[t.rows x, t.fullK], w⟩
  shimDims := dims

/-- The addresses a flow's starts read or write, in order. -/
def startStream (starts : List StartIo) : List ℤ :=
  starts.flatMap fun s => s.bds.flatMap fun bd => bd.start s.repeatCount

/-! ## The program of an input -/

section Program

variable (t : Sizes) (nOuter : Bool) (eb : ℕ) (x : Input)

/-- Length of a transfer: all K rounds of a sub-tile, in elements, or one K round of all rows. -/
def sendLen : ℕ :=
  if t.Split x then t.tile x * t.effectiveK * t.kRounds else t.rows x * t.fullK * eb / t.kRounds

/-- Step and wrap of the descriptor's iteration: over inner sub-tiles, or over K rounds. -/
def sendIter : ℤ × ℤ :=
  if t.Split x then
    if x = outerInput nOuter then (0, 0) else (i32 (t.tile x * t.fullK * eb : ℕ), i32 (t.tiles x))
  else (i32 (t.effectiveK * eb : ℕ), i32 t.kRounds)

/-- Bytes from one iteration of the host loop to the next. -/
def sendStride : ℕ := if x = outerInput nOuter then t.tile x * t.fullK * eb else 0

/-- Repeats of a transfer: the inner sub-tiles, or the K rounds where there are none. -/
def sendRepeat : ℤ :=
  if t.Split (innerInput nOuter) then i32 (t.tiles (innerInput nOuter)) else i32 t.kRounds

/-- The descriptor of iteration `iv` of the host loop. -/
def sendBd (dims : Option (List Dim)) (iv : ℕ) : Bd where
  offset := i32 (i32 iv * i32 (sendStride t nOuter eb x))
  len := i32 (sendLen t eb x)
  dims := dims.getD []
  iterStep := (sendIter t nOuter eb x).1
  iterWrap := (sendIter t nOuter eb x).2

end Program

/-! ## The passes -/

variable {t : Sizes} (g : GemmModule t) (w : ℕ) (x : Input) (maxBytes n : ℕ) (argIdx : ℤ)
    (dims : Option (List Dim))

theorem lookup_mem {map : TensorRoutingInfoMap} {i : ℤ} {info : TensorRoutingInfo}
    (h : lookupTensorRoutingInfo map i = some info) : (i, info) ∈ map := by
  unfold lookupTensorRoutingInfo at h
  induction map with
  | nil => cases h
  | cons e map ih =>
    obtain ⟨k, v⟩ := e
    rw [lookup_cons] at h
    by_cases hk : i = k
    · subst hk
      simp only [beq_self_eq_true, Option.some.injEq] at h
      rw [h]
      exact mem_cons_self
    · rw [beq_false_of_ne hk] at h
      exact mem_cons_of_mem _ (ih h)

theorem lookupHalo_plain (i : ℤ) : lookupHalo (enterPass g.module).tensorInfo i = none := by
  change lookupHalo g.module.tensorInfo i = none
  unfold lookupHalo
  rcases hl : lookupTensorRoutingInfo g.module.tensorInfo i with _ | info
  · rfl
  · exact g.plain _ (lookup_mem hl)

theorem readGemmTilingScalars_eq : g.module.readGemmTilingScalars = t.scalars := by
  unfold Module.readGemmTilingScalars
  rw [if_pos g.fullconnect, g.tiling]

theorem isFullConnectAuto_eq : g.module.isFullConnectAuto = true := by
  unfold Module.isFullConnectAuto
  rw [g.fullconnect]
  rfl

/-- The sizes as the pass reads them. -/
theorem enterPass_eq : let ps := enterPass g.module
    ps.tileM = t.tile .A ∧ ps.tileRows = t.rows .A ∧ ps.tileN = t.tile .B ∧ ps.tileCols = t.rows .B ∧
      ps.effectiveK = t.effectiveK ∧ ps.fullK = t.fullK ∧ ps.kRounds = t.kRounds := by
  simp only [enterPass, readGemmTilingScalars_eq]
  exact ⟨rfl, rfl, rfl, rfl, rfl, rfl, rfl⟩

theorem shimLens_input {c : FlowLoweringCtx} {eb : ℕ} (hhalo : c.isHaloSlab = false)
    (hsend : c.op.shimIsSender = true) (hid : c.dataId = x.dataId) (hl2 : c.l2CorePerRoundLen = 0)
    (hlen : c.shimBdLen = t.rows x * t.fullK * eb) :
    shimLens (enterPass g.module) c = (sendLen t eb x, 0) := by
  obtain ⟨hM, hR, hN, hC, hE, -, hK⟩ := enterPass_eq g
  unfold shimLens sendLen
  simp only [hhalo, hsend, hid, hlen, hl2, hM, hR, hN, hC, hE, hK]
  cases x <;> simp [t.kRounds_gt, t.tile_pos, Input.dataId] <;> rfl

theorem inputIter_input {c : FlowLoweringCtx} (hid : c.dataId = x.dataId) :
    inputIter g.module (enterPass g.module) c =
      sendIter t g.module.isNOuterPolicy (elementSizeBytes c.op.memrefType.elementTypeBitWidth) x := by
  obtain ⟨hM, hR, hN, hC, hE, hF, hK⟩ := enterPass_eq g
  unfold inputIter sendIter
  simp only [hid, hM, hR, hN, hC, hE, hF, hK]
  cases x <;> cases g.module.isNOuterPolicy <;>
    simp [t.tile_pos, Input.dataId, outerInput, Sizes.Split, Sizes.tiles]

theorem inputRepeat_input :
    inputRepeat g.module (enterPass g.module) = sendRepeat t g.module.isNOuterPolicy := by
  obtain ⟨hM, hR, hN, hC, -, -, hK⟩ := enterPass_eq g
  unfold inputRepeat sendRepeat
  simp only [hM, hR, hN, hC, hK]
  cases g.module.isNOuterPolicy <;> simp [t.kRounds_gt, t.tile_pos, innerInput, Sizes.Split, Sizes.tiles]

theorem shimBdParams_input :
    let c := shimBdParams (enterPass g.module) maxBytes
      (emitShimTileAndParams (enterPass g.module) { op := inputFlow t w x n argIdx dims })
    c.op = inputFlow t w x n argIdx dims ∧ c.isHaloSlab = false ∧ c.kAccumHaloSlab = false ∧
      c.useOOO = false ∧
      c.dataId = x.dataId ∧ c.l2CorePerRoundLen = 0 ∧ c.perTileShimLen = sendLen t
        (elementSizeBytes w) x := by
  set op := inputFlow t w x n argIdx dims with hop
  have hhalo : lookupHalo (enterPass g.module).tensorInfo op.argIdx = none := lookupHalo_plain g _
  set c := emitShimTileAndParams (enterPass g.module) { op := op } with hc
  have hcop : c.op = op := by rw [hc, emitShimTileAndParams]; simp only [hhalo]
  have hslab : c.isHaloSlab = false := by rw [hc, emitShimTileAndParams]; simp only [hhalo]
  have hk : c.kAccumHaloSlab = false := by rw [hc, emitShimTileAndParams]; simp only [hhalo]
  have hl2 : c.l2CorePerRoundLen = 0 := by rw [hc, emitShimTileAndParams]; simp only [hhalo]
  have hid : c.dataId = x.dataId := by rw [hc, emitShimTileAndParams]; simp only [hhalo]; rfl
  have hlen : c.shimBdLen = t.rows x * t.fullK * elementSizeBytes w := by
    rw [hc, emitShimTileAndParams]
    simp only [hhalo]
    simp [hop, inputFlow, MemRefType.numElements]
  have hlens := shimLens_input g x hslab (by rw [hcop]; rfl) hid hl2 hlen
  exact ⟨hcop, hslab, hk, by simp [shimBdParams, hcop, hop, inputFlow], hid, congrArg Prod.snd hlens,
    congrArg Prod.fst hlens⟩

/-- The context of an input: no halo, and a single descriptor. -/
theorem shimCtx_input : let c := shimCtx g.module maxBytes (inputFlow t w x n argIdx dims)
    c.op = inputFlow t w x n argIdx dims ∧ c.isHaloSlab = false ∧ c.kAccumHaloSlab = false ∧
      c.useOOO = false ∧
      c.dataId = x.dataId ∧ c.l2CorePerRoundLen = 0 ∧
      c.shimBds = [sendBd t g.module.isNOuterPolicy (elementSizeBytes w) x dims 0] := by
  obtain ⟨hop, hslab, hk, hooo, hid, hl2, hlen⟩ := shimBdParams_input g w x maxBytes n argIdx dims
  set c := shimBdParams (enterPass g.module) maxBytes
    (emitShimTileAndParams (enterPass g.module) { op := inputFlow t w x n argIdx dims }) with hc
  have hctx : shimCtx g.module maxBytes (inputFlow t w x n argIdx dims) =
      emitShimBdNonOoo g.module (enterPass g.module) c := by
    unfold shimCtx emitShimBd
    rw [← hc, if_neg (by rw [hooo]; simp)]
  have hcond : c.op.shimIsSender = true ∧ ¬c.isHaloSlab = true ∧ 0 < (enterPass g.module).effectiveK ∧
      (enterPass g.module).effectiveK < (enterPass g.module).fullK ∧ 1 < (enterPass g.module).kRounds := by
    obtain ⟨-, -, -, -, hE, hF, hK⟩ := enterPass_eq g
    rw [hE, hF, hK, hslab, hop]
    exact ⟨rfl, Bool.false_ne_true, t.effectiveK_pos, t.effectiveK_lt, t.kRounds_gt⟩
  have hiter := inputIter_input g x hid
  rw [hctx]
  refine ⟨hop, hslab, hk, hooo, hid, hl2, ?_⟩
  unfold emitShimBdNonOoo
  simp only [if_pos hcond]
  simp only [hiter, hlen, hop, sendBd, Nat.cast_zero, i32_zero, zero_mul]
  rfl

theorem classifyDim_of_dvd {tile full : ℕ} (hd : tile ∣ full) (hf : 0 < full) :
    classifyDim tile full = (if tile < full then .multiple else .match, full / tile) := by
  have hpos := Nat.pos_of_dvd_of_pos hd hf
  have hle := Nat.le_of_dvd hf hd
  unfold classifyDim
  rcases lt_or_ge tile full with hlt | hge
  · rw [if_neg (by omega), if_pos ⟨hlt, Nat.mod_eq_zero_of_dvd hd⟩, if_pos hlt]
  · have heq : tile = full := by omega
    rw [if_pos (Or.inr heq), if_neg (by omega), heq, Nat.div_self hf]

theorem classifyScheduleMode_input (c : FlowLoweringCtx) :
    let mode := classifyScheduleMode g.module (enterPass g.module) c
    (mode.needsOuterLoop = true ↔ t.Split (outerInput g.module.isNOuterPolicy)) ∧ mode.fullConnect = true ∧
      mode.haloL2RoundsForLoop = 0 ∧ mode.haloKRoundsForLoop = 0 ∧
      (if g.module.isNOuterPolicy then mode.classification.nRounds else mode.classification.mRounds) =
        t.tiles (outerInput g.module.isNOuterPolicy) := by
  have hhalo : lookupHalo (enterPass g.module).tensorInfo c.op.argIdx = none := lookupHalo_plain g _
  have hM := classifyDim_of_dvd t.tileM_dvd t.tileRows_pos
  have hN := classifyDim_of_dvd t.tileN_dvd t.tileCols_pos
  have hts : (enterPass g.module).tilingScalars = t.scalars := readGemmTilingScalars_eq g
  simp only [classifyScheduleMode, hhalo, isFullConnectAuto_eq, hts, classifyTiling]
  cases g.module.isNOuterPolicy <;>
    simp [Sizes.scalars, hM, hN, Sizes.Split, outerInput, Sizes.tile, Sizes.rows, Sizes.tiles]

theorem sendStride_eq (eb : ℕ) :
    (if ¬g.module.isNOuterPolicy ∧ x.dataId = 1 then (enterPass g.module).tileM *
      (enterPass g.module).fullK * eb
      else if g.module.isNOuterPolicy ∧ x.dataId = 0 then (enterPass g.module).tileN *
      (enterPass g.module).fullK * eb
      else 0) = sendStride t g.module.isNOuterPolicy eb x := by
  obtain ⟨hM, -, hN, -, -, hF, -⟩ := enterPass_eq g
  rw [hM, hN, hF]
  unfold sendStride
  cases x <;> cases g.module.isNOuterPolicy <;> simp [Input.dataId, outerInput]

/-- **The lowering of an input**: one start for each outer sub-tile. -/
theorem lowerFlow_input : lowerFlow g.module maxBytes (inputFlow t w x n argIdx dims) =
    .ok ((range (t.tiles (outerInput g.module.isNOuterPolicy))).map fun iv =>
      ⟨[sendBd t g.module.isNOuterPolicy (elementSizeBytes w) x dims iv],
        sendRepeat t g.module.isNOuterPolicy⟩) := by
  obtain ⟨hop, hslab, hk, hooo, hid, -, hbds⟩ := shimCtx_input g w x maxBytes n argIdx dims
  set c := shimCtx g.module maxBytes (inputFlow t w x n argIdx dims) with hc
  obtain ⟨hloop, hfull, hl2, hkr, hrounds⟩ := classifyScheduleMode_input g c
  set mode := classifyScheduleMode g.module (enterPass g.module) c with hmode
  have hrep := inputRepeat_input g
  have hsend : c.op.shimIsSender = true := by rw [hop]; rfl
  rw [lowerFlow_eq, flowStarts, ← hc]
  refine congrArg Except.ok ?_
  unfold emitSchedule
  rw [← hmode]
  by_cases hs : t.Split (outerInput g.module.isNOuterPolicy)
  · -- the host loop
    have hw : c.op.memrefType.elementTypeBitWidth = w := by rw [hop]; rfl
    have hp : computeMultipleInputOffsetParams g.module (enterPass g.module) c mode =
        ⟨t.tiles (outerInput g.module.isNOuterPolicy), sendRepeat t g.module.isNOuterPolicy,
          sendStride t g.module.isNOuterPolicy (elementSizeBytes w) x, none⟩ := by
      unfold computeMultipleInputOffsetParams
      simp only [hslab, hl2, hkr, hrounds, hrep, hid, hw, sendStride_eq g x]
      rfl
    rw [if_pos (by rw [hloop.2 hs, hsend]; rfl)]
    unfold emitScheduleMultipleInput
    rw [hp, hbds]
    rfl
  · -- a single start
    have hno : mode.needsOuterLoop = false := by
      rw [← Bool.not_eq_true, hloop]
      exact hs
    rw [if_neg (by rw [hno]; simp), if_neg (by rw [hooo]; simp)]
    have hline : straightLineRepeat g.module (enterPass g.module) c mode =
        sendRepeat t g.module.isNOuterPolicy := by
      unfold straightLineRepeat
      simp [hfull, hk, hslab, hooo, hsend, hrep]
    unfold emitScheduleStraightLine
    rw [hline, hbds, Sizes.tiles_of_not_split hs]
    rfl

end AieHlc.Gemm
