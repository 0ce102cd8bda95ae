import AieHlc.Gemm.Lowering
import AieHlc.Lower.Core

/-!
# Fills of a GEMM's input windows

A core consumes an input in fills of one sub-tile and K round. The host pass sizes the
core's buffer from the partition, by K rounds and the rounds of M, and the shim's
transfers from the sub-tile, in elements. This module compares the two.

* `ByteTiling`: a tiling with elements of whole bytes.
* `fillElems`: the core's buffer, in closed form.
* `FillsAgree`: one input's core buffer, shim length and total fit together.
* `fills_agree_iff`: the tilings for which they do, for both inputs.
-/

namespace AieHlc.Gemm

open List AieHlc.Dma AieHlc.Word AieHlc.Lower

/-- A tiling with elements of whole bytes. -/
structure ByteTiling extends Sizes where
  elemBytes : ℕ
  elemBytes_pos : 0 < elemBytes

namespace ByteTiling

variable (t : ByteTiling) (x : Input)

def mRounds : ℕ := t.tiles .A

def nRounds : ℕ := t.tiles .B

def fillBytes : ℕ := t.tile x * t.effectiveK * t.elemBytes

theorem fillBytes_pos : 0 < t.fillBytes x :=
  Nat.mul_pos (Nat.mul_pos (t.tile_pos x) t.effectiveK_pos) t.elemBytes_pos

/-- The shim's length of one transfer. -/
def fillLen : ℕ := sendLen t.toSizes t.elemBytes x

/-- Elements of a core's buffer before the budget. Both inputs are divided by the rounds of M. -/
def shareElems : ℕ := t.rows x * t.effectiveK / t.mRounds

/-- How often the shim repeats a transfer: the inner sub-tiles, or the K rounds where there are none. -/
def repeats (nOuter : Bool) : ℕ :=
  if t.Split (innerInput nOuter) then t.tiles (innerInput nOuter) else t.kRounds

theorem sendRepeat_eq (nOuter : Bool) : sendRepeat t.toSizes nOuter = i32 (t.repeats nOuter) := by
  unfold sendRepeat repeats
  split <;> rfl

/-- The flow that sends an input to the cores. The dimensions of its walk play no part. -/
def fillFlow (coreTiles : ℕ) (argIdx : ℤ) (dims : Option (List Dim)) : FlowTransferOp :=
  inputFlow t.toSizes (8 * t.elemBytes) x coreTiles argIdx dims

end ByteTiling

variable {t : ByteTiling} (g : GemmModule t.toSizes)

theorem elementSizeBytes_bytes {e : ℕ} (h : 0 < e) : elementSizeBytes (8 * e) = e := by
  unfold elementSizeBytes
  rw [Nat.mul_div_cancel_left _ (by decide), if_neg (by omega)]

/-! ## The shim's transfers -/

variable (x : Input)

/-- **The transfers of an input**: one start for each outer sub-tile, each of one descriptor. -/
theorem lowerFlow_fill (maxBytes n : ℕ) (argIdx : ℤ) (dims : Option (List Dim)) :
    ∃ starts, lowerFlow g.module maxBytes (t.fillFlow x n argIdx dims) = .ok starts ∧
      starts.length = t.tiles (outerInput g.module.isNOuterPolicy) ∧
      ∀ s ∈ starts, s.repeatCount = i32 (t.repeats g.module.isNOuterPolicy) ∧
        ∃ bd, s.bds = [bd] ∧ bd.len = i32 (t.fillLen x) := by
  refine ⟨_, lowerFlow_input g _ x maxBytes n argIdx dims, by simp, ?_⟩
  intro s hmem
  obtain ⟨iv, -, rfl⟩ := mem_map.1 hmem
  refine ⟨t.sendRepeat_eq _, _, rfl, ?_⟩
  rw [sendBd, elementSizeBytes_bytes t.elemBytes_pos]
  rfl

theorem length_startStream {starts : List StartIo} {k : ℕ} {len rep : ℤ} (hk : starts.length = k)
    (h : ∀ s ∈ starts, s.repeatCount = rep ∧ ∃ bd, s.bds = [bd] ∧ bd.len = len) :
    (startStream starts).length = k * (rep.toNat * len.toNat) := by
  subst hk
  induction starts with
  | nil => simp [startStream]
  | cons s starts ih =>
    obtain ⟨hrep, bd, hbds, hlen⟩ := h s mem_cons_self
    have htail := ih fun s' hs' => h s' (mem_cons_of_mem _ hs')
    unfold startStream at htail ⊢
    rw [flatMap_cons, length_append, htail, hbds, flatMap_singleton, Bd.length_start, hrep, hlen, length_cons]
    ring

/-! ## The core's buffer -/

/-- Elements a core's buffer gets under the budget. -/
def ByteTiling.fillElems (t : ByteTiling) (maxBytes : ℕ) (x : Input) : ℕ :=
  min (max 1 (t.shareElems x)) (maxBytes / t.elemBytes)

theorem perKRoundElements_fill {c : FlowLoweringCtx} {n : ℕ} {argIdx : ℤ}
    {dims : Option (List Dim)} (hop : c.op = t.fillFlow x n argIdx dims) :
    perKRoundElements (enterPass g.module) c = t.shareElems x := by
  have hn : coreElements (enterPass g.module) c = t.rows x * t.fullK := by
    unfold coreElements
    rw [hop]
    simp [ByteTiling.fillFlow, inputFlow, MemRefType.numElements, elementSizeBytes_bytes t.elemBytes_pos,
      Nat.mul_div_cancel _ t.elemBytes_pos]
  have hdiv : t.rows x * t.fullK / t.kRounds = t.rows x * t.effectiveK := by
    rw [t.fullK_eq, ← mul_assoc, Nat.mul_div_cancel _ t.kRounds_pos]
  have hsend : c.op.shimIsSender = true := by rw [hop]; rfl
  obtain ⟨hM, hR, -, -, -, -, hK⟩ := enterPass_eq g
  unfold perKRoundElements ByteTiling.shareElems
  simp only [hn, hsend, hM, hR, hK, if_true, t.kRounds_gt, hdiv, t.tile_pos, true_and]
  split
  · rfl
  · rename_i h
    rw [ByteTiling.mRounds, Sizes.tiles_of_not_split h, Nat.div_one]

/-- **The core's buffer of an input**: the conversion refuses it for a single buffer that is too small. -/
theorem lowerCore_fill {maxBytes : ℕ} (n : ℕ) (ppDepth argIdx : ℤ)
    (dims : Option (List Dim)) (hmax : 0 < maxBytes / t.elemBytes) (len : ℕ) :
    (∃ k, lowerCore g.module maxBytes ppDepth (t.fillFlow x n argIdx dims) = .ok k ∧
        coreBdLen (shimCtx g.module maxBytes (t.fillFlow x n argIdx dims)) k = len) ↔
      t.fillElems maxBytes x * t.elemBytes = len ∧
      (ppDepth = 1 → t.shareElems x ≤ maxBytes / t.elemBytes) := by
  obtain ⟨hop, -, -, -, -, hl2, -⟩ := shimCtx_input g (8 * t.elemBytes) x maxBytes n argIdx dims
  change (shimCtx g.module maxBytes (t.fillFlow x n argIdx dims)).op = t.fillFlow x n argIdx dims at hop
  change (shimCtx g.module maxBytes (t.fillFlow x n argIdx dims)).l2CorePerRoundLen = 0 at hl2
  set c := shimCtx g.module maxBytes (t.fillFlow x n argIdx dims) with hc
  have hw : elementSizeBytes c.op.memrefType.elementTypeBitWidth = t.elemBytes := by
    rw [hop]
    exact elementSizeBytes_bytes t.elemBytes_pos
  have hhalo : lookupHalo (enterPass g.module).tensorInfo c.op.argIdx = none := lookupHalo_plain g _
  have hsizes : coreTileSizes (enterPass g.module) ppDepth c =
      { elementSizeBytes := t.elemBytes
        perCoreElements := coreElements (enterPass g.module) c
        perCorePerKRound := t.shareElems x
        ppDepth := ppDepth
        pingPongBufferSize := max 1 (t.shareElems x)
        hostSpatialHaloPort := false
        kSplitSlabPort := false
        numIterations := 0 } := by
    have hmax : (if t.shareElems x = 0 then 1 else t.shareElems x) = max 1 (t.shareElems x) := by
      split <;> omega
    unfold coreTileSizes
    simp only [perKRoundElements_fill g x hop, hw, hhalo, hl2, hmax]
    simp
  have hcore : lowerCore g.module maxBytes ppDepth (t.fillFlow x n argIdx dims) =
      computeCoreIterations (enterPass g.module) maxBytes c
        (coreTileSizes (enterPass g.module) ppDepth c) := by
    unfold lowerCore
    rw [lowerShim_eq]
    rfl
  have hsize : clampElements maxBytes t.elemBytes (max 1 (t.shareElems x)) = t.fillElems maxBytes x :=
    clampElements_eq t.elemBytes_pos hmax _
  have hpos : 0 < t.fillElems maxBytes x := by
    unfold ByteTiling.fillElems
    omega
  -- more than one round exactly where the budget cut the buffer
  have hrounds : 1 < (t.shareElems x + t.fillElems maxBytes x - 1) / t.fillElems maxBytes x ↔
      ¬t.shareElems x ≤ maxBytes / t.elemBytes := by
    rw [Nat.lt_iff_add_one_le, Nat.le_div_iff_mul_le hpos]
    unfold ByteTiling.fillElems
    omega
  have hlen : ∀ k : CoreTileCtx, k.pingPongBufferSize = t.fillElems maxBytes x →
    k.elementSizeBytes = t.elemBytes →
      coreBdLen c k = t.fillElems maxBytes x * t.elemBytes := by
    intro k h1 h2
    have hne := Nat.mul_pos hpos t.elemBytes_pos
    unfold coreBdLen
    simp only [hl2, h1, h2, lt_irrefl, false_and, if_false]
    exact if_neg hne.ne'
  rw [hcore, hsizes]
  unfold computeCoreIterations
  simp only [Bool.or_self, Bool.false_eq_true, if_false, hsize, hrounds]
  by_cases hpp : ppDepth = 1 ∧ ¬t.shareElems x ≤ maxBytes / t.elemBytes
  · rw [if_pos hpp]
    constructor
    · rintro ⟨k, hk, -⟩
      cases hk
    · rintro ⟨-, hfit⟩
      exact absurd (hfit hpp.1) hpp.2
  · rw [if_neg hpp]
    constructor
    · rintro ⟨k, hk, rfl⟩
      obtain rfl := Except.ok.inj hk
      exact ⟨(hlen _ rfl rfl).symm, fun h1 => not_not.1 fun h2 => hpp ⟨h1, h2⟩⟩
    · rintro ⟨rfl, -⟩
      exact ⟨_, rfl, hlen _ rfl rfl⟩

/-! ## Which tilings agree -/

/-- The fills of an input agree: the core's buffer is one fill, each transfer is whole fills, and all
transfers together are the fills the kernel consumes. -/
def FillsAgree (maxBytes : ℕ) (ppDepth : ℤ) (x : Input) (n : ℕ) (argIdx : ℤ)
    (dims : Option (List Dim)) : Prop :=
  ∃ core starts, lowerCore g.module maxBytes ppDepth (t.fillFlow x n argIdx dims) = .ok core ∧
    lowerFlow g.module maxBytes (t.fillFlow x n argIdx dims) = .ok starts ∧
    coreBdLen (shimCtx g.module maxBytes (t.fillFlow x n argIdx dims)) core = t.fillBytes x ∧
    (∀ s ∈ starts, ∀ bd ∈ s.bds, (t.fillBytes x : ℤ) ∣ bd.len) ∧
    (startStream starts).length = t.fillBytes x * (t.mRounds * t.nRounds * t.kRounds)

namespace ByteTiling

variable (t : ByteTiling) (nOuter : Bool)

/-- The core's buffer holds one fill, and a single buffer all of the share. -/
structure CoreFits (maxBytes : ℕ) (ppDepth : ℤ) (x : Input) : Prop where
  size : t.fillElems maxBytes x = t.tile x * t.effectiveK
  single : ppDepth = 1 → t.shareElems x ≤ maxBytes / t.elemBytes

/-- The shim's transfers of an input are whole fills, and as many as are consumed. -/
structure Sends (x : Input) : Prop where
  dvd : (t.fillBytes x : ℤ) ∣ i32 (t.fillLen x)
  total : t.tiles (outerInput nOuter) * ((i32 (t.repeats nOuter)).toNat * (i32 (t.fillLen x)).toNat) =
    t.fillBytes x * (t.mRounds * t.nRounds * t.kRounds)

/-- The tilings whose transfers are right: no sub-tiles; sub-tiles of M and N, of bytes; or sub-tiles of the
outer dimension only, where the K rounds in a transfer happen to make up for the element size. -/
def Streams : Prop :=
  (¬t.Split (outerInput nOuter) ∧ ¬t.Split (innerInput nOuter) ∧ t.kRounds < 2 ^ 31 ∧
      ∀ x, t.fillBytes x < 2 ^ 31) ∨
    (t.Split (outerInput nOuter) ∧ t.Split (innerInput nOuter) ∧ t.elemBytes = 1 ∧
      t.tiles (innerInput nOuter) < 2 ^ 31 ∧ ∀ x, t.tile x * t.fullK < 2 ^ 31) ∨
    (t.Split (outerInput nOuter) ∧ ¬t.Split (innerInput nOuter) ∧ t.kRounds < 2 ^ 31 ∧
      t.fillBytes (innerInput nOuter) < 2 ^ 31 ∧
      i32 (t.tile (outerInput nOuter) * t.fullK : ℕ) = t.fillBytes (outerInput nOuter))

theorem forall_input {p : Input → Prop} : (∀ x, p x) ↔ p (outerInput nOuter) ∧ p (innerInput nOuter) := by
  constructor
  · exact fun h => ⟨h _, h _⟩
  · rintro ⟨ho, hi⟩ x
    cases nOuter <;> cases x
    exacts [ho, hi, hi, ho]

theorem rounds_eq : t.mRounds * t.nRounds = t.tiles (outerInput nOuter) * t.tiles (innerInput nOuter) := by
  cases nOuter
  · rfl
  · exact mul_comm _ _

variable {t nOuter}

theorem fillLen_split {x : Input} (h : t.Split x) : t.fillLen x = t.tile x * t.fullK := by
  unfold fillLen sendLen
  rw [if_pos h, t.fullK_eq, mul_assoc]

theorem fillLen_whole {x : Input} (h : ¬t.Split x) : t.fillLen x = t.fillBytes x := by
  unfold fillLen sendLen fillBytes
  rw [if_neg h, ← Sizes.tile_of_not_split h, t.fullK_eq, ← mul_assoc, mul_right_comm,
    Nat.mul_div_cancel _ t.kRounds_pos]

theorem fillBytes_mul : t.fillBytes x * t.kRounds = t.tile x * t.fullK * t.elemBytes := by
  unfold fillBytes
  rw [t.fullK_eq]
  ring

theorem tile_fullK_pos : 0 < t.tile x * t.fullK := by
  rw [t.fullK_eq]
  exact Nat.mul_pos (t.tile_pos x) (Nat.mul_pos t.effectiveK_pos t.kRounds_pos)

theorem sends_iff {x : Input} {r l : ℕ} (hr : t.repeats nOuter = r) (hl : t.fillLen x = l) :
    t.Sends nOuter x ↔ (t.fillBytes x : ℤ) ∣ i32 l ∧
      (i32 r).toNat * (i32 l).toNat = t.tiles (innerInput nOuter) * (t.fillBytes x * t.kRounds) := by
  subst hr hl
  have hrounds : t.fillBytes x * (t.mRounds * t.nRounds * t.kRounds) =
      t.tiles (outerInput nOuter) * (t.tiles (innerInput nOuter) * (t.fillBytes x * t.kRounds)) := by
    rw [t.rounds_eq nOuter]
    ring
  have hcancel := @Nat.mul_right_inj (t.tiles (outerInput nOuter))
    ((i32 (t.repeats nOuter)).toNat * (i32 (t.fillLen x)).toNat)
    (t.tiles (innerInput nOuter) * (t.fillBytes x * t.kRounds)) (t.tiles_pos _).ne'
  rw [← hrounds] at hcancel
  exact ⟨fun h => ⟨h.dvd, hcancel.1 h.total⟩, fun h => ⟨h.1, hcancel.2 h.2⟩⟩

/-- Inner sub-tiles: a transfer holds all K rounds of a sub-tile, but counts elements. -/
theorem sends_inner {x : Input} (hi : t.Split (innerInput nOuter)) :
    t.Sends nOuter x ↔ t.Split x ∧ t.elemBytes = 1 ∧ t.tiles (innerInput nOuter) < 2 ^ 31 ∧
      t.tile x * t.fullK < 2 ^ 31 := by
  by_cases hx : t.Split x
  · rw [sends_iff (if_pos hi) (fillLen_split hx), fillBytes_mul, ← mul_assoc]
    constructor
    · rintro ⟨-, hsent⟩
      exact ⟨hx, toNat_i32_mul_eq (t.tiles_pos _) (tile_fullK_pos x) t.elemBytes_pos hsent⟩
    · rintro ⟨-, he, hr, hl⟩
      refine ⟨?_, ?_⟩
      · rw [i32_of_lt hl]
        refine Int.natCast_dvd_natCast.2 ⟨t.kRounds, ?_⟩
        rw [fillBytes_mul, he, mul_one]
      · rw [toNat_i32_of_lt hr, toNat_i32_of_lt hl, he, mul_one]
  · -- one K round in a transfer, and no repeat for the others
    rw [sends_iff (if_pos hi) (fillLen_whole hx), ← mul_assoc]
    refine iff_of_false ?_ fun h => hx h.1
    rintro ⟨-, hsent⟩
    have hk := (toNat_i32_mul_eq (t.tiles_pos _) (t.fillBytes_pos x) t.kRounds_pos hsent).1
    exact absurd hk t.kRounds_gt.ne'

/-- No inner sub-tiles: every transfer is repeated for the K rounds. -/
theorem sends_whole {x : Input} (hi : ¬t.Split (innerInput nOuter)) (hx : ¬t.Split x) :
    t.Sends nOuter x ↔ t.kRounds < 2 ^ 31 ∧ t.fillBytes x < 2 ^ 31 := by
  rw [sends_iff (if_neg hi) (fillLen_whole hx), Sizes.tiles_of_not_split hi, one_mul,
    mul_comm (t.fillBytes x) t.kRounds]
  constructor
  · rintro ⟨-, hsent⟩
    exact (toNat_i32_mul_eq t.kRounds_pos (t.fillBytes_pos x) Nat.one_pos (by rw [hsent, mul_one])).2
  · rintro ⟨hk, hl⟩
    rw [i32_of_lt hl, toNat_i32_of_lt hk]
    exact ⟨dvd_rfl, rfl⟩

/-- Sub-tiles of the outer dimension only: its transfers hold all K rounds and are repeated for them too. -/
theorem sends_outer {x : Input} (hi : ¬t.Split (innerInput nOuter)) (hx : t.Split x)
    (hk : t.kRounds < 2 ^ 31) :
    t.Sends nOuter x ↔ i32 (t.tile x * t.fullK : ℕ) = t.fillBytes x := by
  have hpos := t.fillBytes_pos x
  rw [sends_iff (if_neg hi) (fillLen_split hx), Sizes.tiles_of_not_split hi, one_mul, toNat_i32_of_lt hk,
    mul_comm (t.fillBytes x) t.kRounds, Nat.mul_right_inj t.kRounds_pos.ne']
  constructor
  · rintro ⟨-, hlen⟩
    omega
  · intro h
    rw [h]
    exact ⟨dvd_rfl, Int.toNat_natCast _⟩

theorem sends_iff_streams : (∀ x, t.Sends nOuter x) ↔ t.Streams nOuter := by
  rw [forall_input nOuter]
  unfold Streams
  rw [@forall_input nOuter fun x => t.fillBytes x < 2 ^ 31, @forall_input nOuter fun x =>
    t.tile x * t.fullK < 2 ^ 31]
  by_cases hi : t.Split (innerInput nOuter)
  · rw [sends_inner hi, sends_inner hi]
    tauto
  · rw [sends_whole hi hi]
    by_cases ho : t.Split (outerInput nOuter)
    · constructor
      · rintro ⟨hsends, hk, hl⟩
        exact Or.inr (Or.inr ⟨ho, hi, hk, hl, (sends_outer hi ho hk).1 hsends⟩)
      · rintro (h | h | ⟨-, -, hk, hl, hlen⟩)
        · exact absurd ho h.1
        · exact absurd h.2.1 hi
        · exact ⟨(sends_outer hi ho hk).2 hlen, hk, hl⟩
    · rw [sends_whole hi ho]
      tauto

theorem coreFits_A {maxBytes : ℕ} (h : t.fillBytes .A ≤ maxBytes) (ppDepth : ℤ) :
    t.CoreFits maxBytes ppDepth .A := by
  have hshare : t.shareElems .A = t.tile .A * t.effectiveK := by
    have hrows : t.rows .A = t.tile .A * t.mRounds := (Nat.mul_div_cancel' (t.tile_dvd .A)).symm
    have hpos : 0 < t.mRounds := t.tiles_pos .A
    rw [shareElems, hrows, mul_right_comm, Nat.mul_div_cancel _ hpos]
  have hfit : t.tile .A * t.effectiveK ≤ maxBytes / t.elemBytes := (Nat.le_div_iff_mul_le t.elemBytes_pos).2 h
  have hpos := Nat.mul_pos (t.tile_pos .A) t.effectiveK_pos
  refine ⟨?_, ?_⟩
  · unfold fillElems
    omega
  · intro _
    rw [hshare]
    exact hfit

end ByteTiling

theorem fillsAgree_iff {maxBytes : ℕ} (hmax : t.fillBytes x ≤ maxBytes)
    (ppDepth : ℤ) (n : ℕ) (argIdx : ℤ) (dims : Option (List Dim)) :
    FillsAgree g maxBytes ppDepth x n argIdx dims ↔
      t.CoreFits maxBytes ppDepth x ∧ t.Sends g.module.isNOuterPolicy x := by
  have hfit : t.tile x * t.effectiveK ≤ maxBytes / t.elemBytes :=
    (Nat.le_div_iff_mul_le t.elemBytes_pos).2 hmax
  have hpos := Nat.mul_pos (t.tile_pos x) t.effectiveK_pos
  have hcore := lowerCore_fill g x n ppDepth argIdx dims (lt_of_lt_of_le hpos hfit) (t.fillBytes x)
  have hsize : t.fillElems maxBytes x * t.elemBytes = t.fillBytes x ↔
      t.fillElems maxBytes x = t.tile x * t.effectiveK := Nat.mul_left_inj t.elemBytes_pos.ne'
  rw [hsize] at hcore
  obtain ⟨starts, hlower, hlen, hstarts⟩ := lowerFlow_fill g x maxBytes n argIdx dims
  have htotal := length_startStream hlen hstarts
  constructor
  · rintro ⟨core, starts', hok, hlower', hbd, hdvd, hsum⟩
    obtain rfl := Except.ok.inj (hlower.symm.trans hlower')
    obtain ⟨h1, h2⟩ := hcore.1 ⟨core, hok, hbd⟩
    refine ⟨⟨h1, h2⟩, ?_, htotal.symm.trans hsum⟩
    -- there is a start to read the length from
    obtain ⟨s, hs⟩ := List.exists_mem_of_length_pos (hlen ▸ t.tiles_pos _)
    obtain ⟨-, bd, hbds, hbdlen⟩ := hstarts s hs
    rw [← hbdlen]
    exact hdvd s hs bd (hbds ▸ mem_cons_self)
  · rintro ⟨hfits, hsends⟩
    obtain ⟨core, hok, hbd⟩ := hcore.2 ⟨hfits.size, hfits.single⟩
    refine ⟨core, starts, hok, hlower, hbd, ?_, htotal.trans hsends.total⟩
    intro s hs bd hmem
    obtain ⟨-, bd', hbds, hbdlen⟩ := hstarts s hs
    rw [hbds, mem_singleton] at hmem
    rw [hmem, hbdlen]
    exact hsends.dvd

/-- **Fill sizes**: the cores' buffers and the shim's transfers of both inputs agree exactly where input B's
buffer, divided by the rounds of M, is one fill, and the transfers are right. -/
theorem fills_agree_iff {maxBytes : ℕ} (hmax : ∀ x, t.fillBytes x ≤ maxBytes) (ppDepth : ℤ)
    (n : Input → ℕ) (argIdx : Input → ℤ) (dims : Input → Option (List Dim)) :
    (∀ x, FillsAgree g maxBytes ppDepth x (n x) (argIdx x) (dims x)) ↔
      t.CoreFits maxBytes ppDepth .B ∧ t.Streams g.module.isNOuterPolicy := by
  rw [← ByteTiling.sends_iff_streams]
  constructor
  · intro h
    exact ⟨((fillsAgree_iff g .B (hmax _) ..).1 (h .B)).1,
      fun x => ((fillsAgree_iff g x (hmax x) ..).1 (h x)).2⟩
  · rintro ⟨hB, hsends⟩ x
    refine (fillsAgree_iff g x (hmax x) ..).2 ⟨?_, hsends x⟩
    cases x
    · exact ByteTiling.coreFits_A (hmax .A) ppDepth
    · exact hB

def twoRounds (c e : ℕ) (hc : 0 < c) (he : 0 < e) : ByteTiling where
  toSizes := smallSizes c hc
  elemBytes := e
  elemBytes_pos := he

def twoRoundsModule (c e : ℕ) (hc : 0 < c) (he : 0 < e) : GemmModule (twoRounds c e hc he).toSizes :=
  (smallSizes c hc).gemmModule

/-- Bytes with as many rounds of M as of N agree. -/
theorem fills_agree_square :
    FillsAgree (twoRoundsModule 2 1 (by decide) (by decide)) 4096 2 .A 4 0 none ∧
      FillsAgree (twoRoundsModule 2 1 (by decide) (by decide)) 4096 2 .B 4 0 none := by
  have hall : ∀ x, FillsAgree (twoRoundsModule 2 1 (by decide) (by decide)) 4096 2 x 4 0 none := by
    refine (fills_agree_iff _ ?_ 2 (fun _ => 4) (fun _ => 0) fun _ => none).2 ⟨⟨by decide, by decide⟩, ?_⟩
    · intro x
      cases x <;> decide
    · refine Or.inr (Or.inl ⟨by decide, by decide, rfl, by decide, ?_⟩)
      intro x
      cases x <;> decide
  exact ⟨hall .A, hall .B⟩

/-- Without sub-tiles of N, input B's buffer is half a fill; with 16-bit elements, half of the bytes
are sent. -/
theorem fills_disagree :
    ¬FillsAgree (twoRoundsModule 1 1 (by decide) (by decide)) 4096 2 .B 4 0 none ∧
      ¬FillsAgree (twoRoundsModule 2 2 (by decide) (by decide)) 4096 2 .A 4 0 none := by
  rw [fillsAgree_iff _ .B (by decide), fillsAgree_iff _ .A (by decide)]
  refine ⟨fun h => absurd h.1.size (by decide), fun h => ?_⟩
  have hbytes := ((ByteTiling.sends_inner (by decide)).1 h.2).2.1
  exact absurd hbytes (by decide)

end AieHlc.Gemm
