import AieHlc.Gemm.Lowering
import AieHlc.Gemm.Operand

/-!
# GEMM input streams, from tiling to DMA

The lowering of the two inputs of a GEMM under `fullconnect_auto`, compared with
the blocks the cores consume. The dimensions of the descriptors come from the
blueprint pass, which asks its own question about sub-tiles.

* `inputStream_eq`: the lowering of an input is the program `Operand.sent`.
* `input_streams_iff`: the exact tilings for which both streams are right.
-/

namespace AieHlc.Gemm

open List AieHlc.Dma AieHlc.Word AieHlc.Lower

/-- A module of a GEMM with tiling `t` and no user transform. -/
structure InputModule (t : Tiling) extends GemmModule t.toSizes where
  untransformed : ∀ e ∈ module.tensorInfo, e.2.shimDma = none

/-- The input seen from its own rows. -/
def operand (t : Tiling) (nOuter : Bool) : Input → Operand
  | .A => ⟨t.tileM, t.tileRows, t.tileN, t.tileCols, !nOuter, t.tileM_dvd, t.tileRows_pos,
    t.tileN_dvd, t.tileCols_pos⟩
  | .B => ⟨t.tileN, t.tileCols, t.tileM, t.tileRows, nOuter, t.tileN_dvd, t.tileCols_pos,
    t.tileM_dvd, t.tileRows_pos⟩

variable {t : Tiling} (g : InputModule t)

/-- The addresses the shim reads for an input, with the dimensions the blueprint pass picks. -/
def inputStream (maxPingPongBytes : ℕ) (x : Input) (coreTiles : ℕ) (argIdx : ℤ) : Except String (List ℤ) :=
  (lowerFlow g.module maxPingPongBytes (inputFlow t.toSizes t.bitWidth x coreTiles argIdx
    (pushShimDims g.module argIdx x.dataId ⟨[t.rows x, t.fullK], t.bitWidth⟩))).map startStream

/-! ## The lowering -/

/-- The dimensions the blueprint pass picks. The third one is asked for with `tile_m`, for both inputs. -/
theorem pushShimDims_input (x : Input) (argIdx : ℤ) (nOuter : Bool) :
    pushShimDims g.module argIdx x.dataId ⟨[t.rows x, t.fullK], t.bitWidth⟩ =
      some ((operand t nOuter x).dims t (decide (t.tileM < t.rows x))) := by
  have hk : kTilingDims t.scalars x.dataId ⟨[t.rows x, t.fullK], t.bitWidth⟩ =
      some ((operand t nOuter x).dims t (decide (t.tileM < t.rows x))) := by
    have hM : 0 < t.tileM := t.tile_pos .A
    have hN : 0 < t.tileN := t.tile_pos .B
    have hw : t.effectiveK / (32 / t.bitWidth) = t.kWords := rfl
    have hf : t.fullK / (32 / t.bitWidth) = t.kWords * t.kRounds := t.fullK_words
    unfold kTilingDims Operand.dims
    cases x <;>
      simp [Sizes.scalars, t.effectiveK_pos, t.effectiveK_lt, MemRefType.rank, MemRefType.dimSize,
        hM, hN, hw, hf,
        t.fullK_div, Sizes.rows, Input.dataId, operand] <;>
      split <;> rename_i h3 <;> simp [h3]
  unfold pushShimDims
  rw [readGemmTilingScalars_eq, hk]
  rcases hl : lookupTensorRoutingInfo g.module.tensorInfo (if argIdx < 0 then x.dataId else argIdx)
    with _ | info
  · simp only [hl, Option.getD_none]
  · have h1 := g.plain _ (lookup_mem hl)
    have h2 := g.untransformed _ (lookup_mem hl)
    simp only at h1 h2
    simp only [hl, Option.getD_some, h1, h2]

/-- The program of an input is that of its operand. -/
theorem sent_operand (nOuter : Bool) (x : Input) (threeD : Bool) :
    (operand t nOuter x).sent t threeD = (range (t.tiles (outerInput nOuter))).flatMap fun iv =>
      (sendBd t.toSizes nOuter t.elemBytes x (some ((operand t nOuter x).dims t threeD)) iv).start
        (sendRepeat t.toSizes nOuter) := by
  cases x <;> cases nOuter <;> rfl

/-- **The lowering of an input**: the program of its operand. -/
theorem inputStream_eq (x : Input) (maxBytes n : ℕ) (argIdx : ℤ) :
    inputStream g maxBytes x n argIdx =
      .ok ((operand t g.module.isNOuterPolicy x).sent t (decide (t.tileM < t.rows x))) := by
  unfold inputStream
  rw [pushShimDims_input g x argIdx g.module.isNOuterPolicy, lowerFlow_input, sent_operand]
  simp only [Except.map, startStream, flatMap_map, flatMap_singleton]
  rfl

/-! ## Which tilings compose -/

namespace Tiling

/-- Without sub-tiles: K rounds, lengths and row pitch fit 32 bits. -/
structure FitsWhole (t : Tiling) : Prop where
  rounds : t.kRounds < 2 ^ 31
  lenA : t.tileRows * t.chunk < 2 ^ 31
  lenB : t.tileCols * t.chunk < 2 ^ 31
  pitchA : t.tileRows = 1 ∨ t.kRounds * t.chunk < 2 ^ 31
  pitchB : t.tileCols = 1 ∨ t.kRounds * t.chunk < 2 ^ 31

/-- With sub-tiles: lengths, inner rounds and the base of the last outer round fit 32 bits. -/
structure FitsSplit (t : Tiling) (nOuter : Bool) : Prop where
  lenA : t.tileM * t.fullK < 2 ^ 31
  lenB : t.tileN * t.fullK < 2 ^ 31
  inner : (if nOuter then t.tileRows / t.tileM else t.tileCols / t.tileN) < 2 ^ 31
  base : (if nOuter then (t.tileCols / t.tileN - 1) * (t.tileN * t.fullK)
    else (t.tileRows / t.tileM - 1) * (t.tileM * t.fullK)) < 2 ^ 31

/-- The tilings for which dimensions, length, iteration and loop fit together: no sub-tiles at all, or
sub-tiles in both M and N of byte elements, with `tile_m` below `tile_cols` as well. -/
def Composes (t : Tiling) (nOuter : Bool) : Prop :=
  (t.tileM = t.tileRows ∧ t.tileN = t.tileCols ∧ 8 ≤ t.bitWidth ∧ t.FitsWhole) ∨
    (t.tileM < t.tileRows ∧ t.tileN < t.tileCols ∧ t.bitWidth = 8 ∧ t.tileM < t.tileCols ∧ t.FitsSplit nOuter)

end Tiling

section Cases

variable (t) (nOuter : Bool)

def sentBy (x : Input) : List ℤ := (operand t nOuter x).sent t (decide (t.tileM < t.rows x))

def consumed (x : Input) : List ℤ := (operand t nOuter x).expected t

variable {t nOuter}

theorem sentBy_whole (hM : t.tileM = t.tileRows) (hN : t.tileN = t.tileCols) :
    (sentBy t nOuter .A = consumed t nOuter .A ∧ sentBy t nOuter .B = consumed t nOuter .B) ↔
      8 ≤ t.bitWidth ∧ t.FitsWhole := by
  have hA : sentBy t nOuter .A = consumed t nOuter .A ↔ _ := Operand.sent_eq_iff_whole hM hN
  have hB : sentBy t nOuter .B = consumed t nOuter .B ↔ _ := Operand.sent_eq_iff_whole hN hM
  rw [hA, hB]
  constructor
  · rintro ⟨⟨hw, hk, hlA, hpA⟩, -, -, hlB, hpB⟩
    exact ⟨hw, hk, hlA, hlB, hpA, hpB⟩
  · rintro ⟨hw, hk, hlA, hlB, hpA, hpB⟩
    exact ⟨⟨hw, hk, hlA, hpA⟩, hw, hk, hlB, hpB⟩

theorem sentBy_split (hM : t.tileM < t.tileRows) (hN : t.tileN < t.tileCols) :
    (sentBy t nOuter .A = consumed t nOuter .A ∧ sentBy t nOuter .B = consumed t nOuter .B) ↔
      t.bitWidth = 8 ∧ t.tileM < t.tileCols ∧ t.FitsSplit nOuter := by
  have hA : sentBy t nOuter .A = consumed t nOuter .A ↔ _ := Operand.sent_eq_iff_split hM hN
  have hB : sentBy t nOuter .B = consumed t nOuter .B ↔ _ := Operand.sent_eq_iff_split hN hM
  rw [hA, hB]
  have h3 : decide (t.tileM < t.tileCols) = true ↔ t.tileM < t.tileCols := decide_eq_true_iff
  constructor
  · rintro ⟨⟨hw, -, hinA, hlA, hbA⟩, -, hthree, hinB, hlB, hbB⟩
    refine ⟨hw, h3.1 hthree, hlA, hlB, ?_, ?_⟩
    · cases nOuter
      · exact hinA
      · exact hinB
    · cases nOuter
      · exact hbA rfl
      · exact hbB rfl
  · rintro ⟨hw, hthree, hlA, hlB, hin, hb⟩
    refine ⟨⟨hw, decide_eq_true hM, ?_, hlA, ?_⟩, hw, h3.2 hthree, ?_, hlB, ?_⟩
    · cases nOuter <;> exact hin
    · intro ho
      cases nOuter
      · exact hb
      · cases ho
    · cases nOuter <;> exact hin
    · intro ho
      cases nOuter
      · cases ho
      · exact hb

/-- Sub-tiles in M only: whichever loop is outer, one of the streams is wrong. -/
theorem sentBy_onlyM (hM : t.tileM < t.tileRows) (hN : t.tileN = t.tileCols) :
    ¬(sentBy t nOuter .A = consumed t nOuter .A ∧ sentBy t nOuter .B = consumed t nOuter .B) := by
  rintro ⟨hA, hB⟩
  cases nOuter
  · exact Operand.sent_ne_outer hM rfl hN hA
  · have hw : t.bitWidth = 8 := Operand.bitWidth_of_sent_inner hM rfl hA
    exact Operand.sent_ne_whole hN rfl hM (by omega) hB

theorem sentBy_onlyN (hM : t.tileM = t.tileRows) (hN : t.tileN < t.tileCols) :
    ¬(sentBy t nOuter .A = consumed t nOuter .A ∧ sentBy t nOuter .B = consumed t nOuter .B) := by
  rintro ⟨hA, hB⟩
  cases nOuter
  · have hw : t.bitWidth = 8 := Operand.bitWidth_of_sent_inner hN rfl hB
    exact Operand.sent_ne_whole hM rfl hN (by omega) hA
  · exact Operand.sent_ne_outer hN rfl hM hB

end Cases

/-- **Input streams.** The shim sends for A and B exactly the blocks the cores consume, in the order of
the policy, if and only if the tiling composes. -/
theorem input_streams_iff (g : InputModule t) (maxPingPongBytes coresA coresB : ℕ) (argA argB : ℤ) :
    (inputStream g maxPingPongBytes .A coresA argA = .ok (consumed t g.module.isNOuterPolicy .A) ∧
      inputStream g maxPingPongBytes .B coresB argB = .ok (consumed t g.module.isNOuterPolicy .B)) ↔
      t.Composes g.module.isNOuterPolicy := by
  rw [inputStream_eq, inputStream_eq, Except.ok.injEq, Except.ok.injEq]
  show (sentBy t _ .A = _ ∧ sentBy t _ .B = _) ↔ _
  have hleM := Nat.le_of_dvd t.tileRows_pos t.tileM_dvd
  have hleN := Nat.le_of_dvd t.tileCols_pos t.tileN_dvd
  unfold Tiling.Composes
  rcases Nat.lt_or_eq_of_le hleM with hM | hM <;> rcases Nat.lt_or_eq_of_le hleN with hN | hN
  · rw [sentBy_split hM hN]
    exact ⟨fun h => Or.inr ⟨hM, hN, h⟩, by rintro (⟨h, -⟩ | ⟨-, -, h⟩); exacts [absurd h (by omega), h]⟩
  · exact iff_of_false (sentBy_onlyM hM hN) (by omega)
  · exact iff_of_false (sentBy_onlyN hM hN) (by omega)
  · rw [sentBy_whole hM hN]
    exact ⟨fun h => Or.inl ⟨hM, hN, h⟩, by rintro (⟨-, -, h⟩ | ⟨h, -⟩); exacts [h, absurd h (by omega)]⟩

def smallTiling (bitWidth : ℕ) (h : bitWidth = 8 ∨ bitWidth = 16) : Tiling where
  toSizes := smallSizes 2 Nat.two_pos
  bitWidth := bitWidth
  bitWidth_dvd := by rcases h with rfl | rfl <;> decide
  aligned := by rcases h with rfl | rfl <;> decide

def smallModule (bitWidth : ℕ) (h : bitWidth = 8 ∨ bitWidth = 16) : InputModule (smallTiling bitWidth h) where
  toGemmModule := (smallSizes 2 Nat.two_pos).gemmModule
  untransformed := by simp [Sizes.gemmModule]

/-- With byte elements both streams are right. -/
theorem input_streams_small_i8 :
    inputStream (smallModule 8 (.inl rfl)) 0 .A 4 0 = .ok (consumed (smallTiling 8 (.inl rfl)) false .A) ∧
      inputStream (smallModule 8 (.inl rfl)) 0 .B 4 1 =
        .ok (consumed (smallTiling 8 (.inl rfl)) false .B) := by
  refine (input_streams_iff (smallModule 8 (.inl rfl)) 0 4 4 0 1).2 (Or.inr
    ⟨by decide, by decide, rfl, by decide, ?_⟩)
  exact ⟨by decide, by decide, by decide, by decide⟩

/-- With 16-bit elements they are not: the length of a sub-tile leaves the element size out. -/
theorem input_streams_small_i16_wrong :
    ¬(inputStream (smallModule 16 (.inr rfl)) 0 .A 4 0 = .ok (consumed (smallTiling 16 (.inr rfl)) false .A) ∧
      inputStream (smallModule 16 (.inr rfl)) 0 .B 4 1 =
        .ok (consumed (smallTiling 16 (.inr rfl)) false .B)) := by
  rintro ⟨hA, -⟩
  rw [inputStream_eq, Except.ok.injEq] at hA
  have hM : (operand (smallTiling 16 (.inr rfl)) false .A).tile <
      (operand (smallTiling 16 (.inr rfl)) false .A).rows := by
    decide
  have hw := (Operand.count_split hM (Operand.innerSplit hM (by decide)) hA).1
  exact absurd hw (by decide)

end AieHlc.Gemm
