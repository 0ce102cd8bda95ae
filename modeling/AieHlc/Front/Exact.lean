import Mathlib.Data.Nat.ModEq
import AieHlc.Front.Derive

/-!
# When the derived tiling loses nothing

The derivation divides five sizes and splits the transfer of each port into rounds; none of the
divisions is checked.

* `Exact`: what the parameters are for. The tiles make up the matrices, the rounds make up the
  tiles, the blocks fit the core and the buffers of a port make up its round.
* `Divides`: the same in terms of the launch: what has to divide what.
* `exact_iff_divides`: the two agree for every launch whose parameters are marked valid.
-/

namespace AieHlc.Front

open Option

/-! ## Splits into rounds -/

theorem ceil_mul_eq_iff {part : ℕ} (hpart : 0 < part) (n : ℕ) :
    (n + part - 1) / part * part = n ↔ part ∣ n := by
  constructor
  · exact fun h => ⟨_, (mul_comm _ _).symm.trans h |>.symm⟩
  · rintro ⟨q, rfl⟩
    have hdiv : (part * q + part - 1) / part = q := by
      rw [Nat.div_eq_iff hpart]
      rw [mul_comm part q]
      omega
    rw [hdiv, mul_comm]

theorem max_one_eq (n : ℕ) : (if n = 0 then 1 else n) = max 1 n := by
  split <;> omega

theorem splitLines_exact_iff {lines line maxBuf : ℕ} (hline : 0 < line) :
    (splitLines lines line maxBuf).numRounds * (splitLines lines line maxBuf).bufferSize = lines * line ↔
      lines * line ≤ maxBuf ∨ max 1 (maxBuf / line) ∣ lines := by
  unfold splitLines
  split
  · rename_i hle
    simp [hle]
  · rename_i hle
    dsimp only
    rw [max_one_eq, ← mul_assoc, Nat.mul_left_inj hline.ne', ceil_mul_eq_iff (lt_max_of_lt_left Nat.one_pos)]
    simp [hle]

/-- The data in full buffers, once it is more than one. -/
def roundUp (maxBuf data : ℕ) : ℕ := if data ≤ maxBuf then data else (data + maxBuf - 1) / maxBuf * maxBuf

theorem splitBuffers_mul (data maxBuf : ℕ) :
    (splitBuffers data maxBuf).numRounds * (splitBuffers data maxBuf).bufferSize = roundUp maxBuf data := by
  unfold splitBuffers roundUp
  split
  · exact one_mul data
  · rfl

theorem roundUp_eq_iff {maxBuf : ℕ} (h : 0 < maxBuf) (data : ℕ) :
    roundUp maxBuf data = data ↔ data ≤ maxBuf ∨ maxBuf ∣ data := by
  unfold roundUp
  split
  · rename_i hle
    simp [hle]
  · rename_i hle
    rw [ceil_mul_eq_iff h]
    simp [hle]

/-- A share rounded up makes up the whole exactly if nothing was rounded. -/
theorem roundUp_div_mul_eq_iff {maxBuf parts : ℕ} (h : 0 < maxBuf) (hparts : 0 < parts) (total : ℕ) :
    roundUp maxBuf (total / parts) * parts = total ↔
      parts ∣ total ∧ (total / parts ≤ maxBuf ∨ maxBuf ∣ total / parts) := by
  rw [← roundUp_eq_iff h]
  constructor
  · intro heq
    have hdvd : parts ∣ total := ⟨_, (mul_comm _ _).symm.trans heq |>.symm⟩
    refine ⟨hdvd, Nat.eq_of_mul_eq_mul_right hparts ?_⟩
    rw [heq, Nat.div_mul_cancel hdvd]
  · rintro ⟨hdvd, heq⟩
    rw [heq, Nat.div_mul_cancel hdvd]

theorem snapDown_spec (total : ℕ) : ∀ rows, 0 < rows →
    0 < snapDown total rows ∧ snapDown total rows ∣ total := by
  intro rows
  induction rows with
  | zero => exact fun h => absurd h (lt_irrefl 0)
  | succ rows ih =>
    intro _
    rw [snapDown]
    split
    · rename_i hnext
      exact ih hnext.1
    · rename_i hstop
      refine ⟨Nat.succ_pos _, ?_⟩
      rcases Nat.eq_zero_or_pos rows with rfl | hpos
      · exact Nat.one_dvd total
      · exact Nat.dvd_of_mod_eq_zero (by_contra fun h => hstop ⟨hpos, h⟩)

theorem splitBand_exact_iff {m n outW maxBuf : ℕ} (hout : 0 < outW) (hover : maxBuf < m * n) :
    (splitBand m n outW maxBuf).numRounds * (splitBand m n outW maxBuf).bufferSize = m * n ↔ outW ∣ m := by
  have hm : 0 < m := Nat.pos_of_ne_zero (by rintro rfl; omega)
  have hn : 0 < n := Nat.pos_of_ne_zero (by rintro rfl; omega)
  unfold splitBand
  dsimp only
  generalize hrows : (if (if 0 < n then maxBuf / n else 0) / outW = 0 then 1
    else (if 0 < n then maxBuf / n else 0) / outW) = rows
  have hpos : 0 < rows := by
    rw [← hrows, max_one_eq]
    exact lt_max_of_lt_left Nat.one_pos
  generalize hrows' : (if m / outW < rows ∧ 0 < m / outW then m / outW else rows) = rows'
  have hpos' : 0 < rows' := by
    rw [← hrows']
    split <;> omega
  clear hrows hrows'
  rcases Nat.eq_zero_or_pos (m / outW) with h0 | htotal
  · -- less than one image row: the round is longer than the band
    have hlt : m < outW := (Nat.div_eq_zero_iff_lt hout).1 h0
    have hle : outW ≤ rows' * outW := Nat.le_mul_of_pos_left _ hpos'
    have hnone : ¬0 < m / outW := fun h => h.ne' h0
    rw [if_neg hnone, if_neg (by omega), ← mul_assoc, Nat.mul_left_inj hn.ne', ceil_mul_eq_iff (by omega)]
    exact iff_of_false (fun h => absurd (Nat.le_of_dvd hm h) (by omega))
      (fun h => absurd (Nat.le_of_dvd hm h) (by omega))
  · obtain ⟨hsnap, hdvd⟩ := snapDown_spec (m / outW) rows' hpos'
    have hround : 0 < snapDown (m / outW) rows' * outW := Nat.mul_pos hsnap hout
    rw [if_pos htotal, if_neg hround.ne', ← mul_assoc, Nat.mul_left_inj hn.ne', ceil_mul_eq_iff hround]
    constructor
    · exact fun h => (Dvd.intro_left _ rfl).trans h
    · intro h
      calc snapDown (m / outW) rows' * outW ∣ m / outW * outW := Nat.mul_dvd_mul_right hdvd outW
        _ = m := Nat.div_mul_cancel h

/-! ## Rounds along a dimension -/

/-- What makes the rounds of a dimension exact: the groups given make up the extent, or the tile
divides it. -/
def RoundsDivide (globalGroups meshFactor tile extent : ℕ) : Prop :=
  if 0 < globalGroups then
    tile * (if meshFactor ∣ globalGroups then globalGroups / meshFactor else globalGroups) = extent
  else tile ∣ extent ∧ tile ≤ extent

theorem perCoreSpatialRounds_exact_iff {meshFactor : ℕ} (hmesh : 0 < meshFactor)
    (globalGroups tile extent : ℕ) :
    tile * perCoreSpatialRounds globalGroups meshFactor tile extent = extent ↔
      RoundsDivide globalGroups meshFactor tile extent := by
  unfold perCoreSpatialRounds RoundsDivide
  split
  · simp only [hmesh, true_and, Nat.dvd_iff_mod_eq_zero]
  · split
    · rename_i hlt
      constructor
      · exact fun h => ⟨⟨_, h.symm⟩, hlt.2.le⟩
      · exact fun h => Nat.mul_div_cancel' h.1
    · rename_i hlt
      rw [mul_one]
      constructor
      · rintro rfl
        exact ⟨Nat.dvd_refl _, le_refl _⟩
      · rintro ⟨hdvd, hle⟩
        rcases Nat.eq_zero_or_pos tile with rfl | hpos
        · exact (Nat.eq_zero_of_zero_dvd hdvd).symm
        · omega

theorem kRounds_eq (groups tile dimK : ℕ) :
    kRounds groups tile dimK = perCoreSpatialRounds groups 1 tile dimK := by
  unfold kRounds perCoreSpatialRounds
  simp only [Nat.mod_one, Nat.div_one, Nat.one_pos, true_and, if_true]

/-! ## What the derivation is for -/

namespace Launch

variable (l : Launch)

/-- The data of a round of a port: a total, and the number of parts it is dealt out in. -/
def roundData (d : DerivedTilingParams) (pt : ParsedTensorInfo) : ℕ × ℕ :=
  if pt.isInput then
    if pt.IsSlab then (pt.slab, 1)
    else if pt.policyResolved then
      if pt.IsA then (d.tileM * d.effectiveK, 1)
      else if pt.IsB then (d.tileN * d.effectiveK, 1)
      else (pt.totalElements, l.effectiveMeshRows * l.effectiveMeshCols)
    else (pt.shape.getD 0 0 * pt.shape.getD 1 0, l.effectiveMeshRows)
  else (d.tileM * d.tileN, 1)

/-- The buffers of a round hold its data, no more and no less. -/
def PortExact (d : DerivedTilingParams) (pt : ParsedTensorInfo) (pp : PortParams) : Prop :=
  pp.numRounds * pp.bufferSize * (l.roundData d pt).2 = (l.roundData d pt).1

structure Exact (d : DerivedTilingParams) : Prop where
  rows : d.tileRows * l.effectiveMeshRows = l.macroDimM
  cols : d.tileCols * l.effectiveMeshCols = l.macroDimN
  m : d.tileM * d.spatialMRounds = d.tileRows
  n : d.tileN * d.spatialNRounds = d.tileCols
  k : d.effectiveK * d.kRounds = l.macroDimK
  fits : d.autoTiled → computeWorkingSet l.hints.elementBytes d.tile ≤ l.usableMem
  ports : List.Forall₂ (l.PortExact d) l.parsedTensors d.portParams

/-! ## What has to divide what -/

/-- The tile of a core in closed form. -/
def tile : Tile :=
  match l.halo with
  | some sd => ⟨l.tileRows / sd.spatialMRounds, l.tileCols, l.macroDimK⟩
  | none =>
    if l.AutoTiled then roomyTile (l.usableMem / l.hints.elementBytes) l.tileRows l.tileCols l.macroDimK
    else l.hintedTile

/-- Room for the blocks of a core: what the search needs, or what is left of it for a convolution. -/
def Room : Prop :=
  match l.halo with
  | some _ => computeWorkingSet l.hints.elementBytes l.tile ≤ l.usableMem
  | none => Roomy (l.usableMem / l.hints.elementBytes) l.tileRows l.tileCols

def convOW : ℕ := (l.halo.map ShimDma.ow).getD 0

/-- What makes the rounds of a port exact. -/
def PortDivides (pt : ParsedTensorInfo) : Prop :=
  if pt.isInput then
    if pt.IsSlab then True
    else if pt.policyResolved then
      if pt.IsA then l.tile.m * l.tile.k ≤ pt.maxBuf ∨ max 1 (pt.maxBuf / l.tile.k) ∣ l.tile.m
      else if pt.IsB then l.tile.n * l.tile.k ≤ pt.maxBuf ∨ max 1 (pt.maxBuf / l.tile.k) ∣ l.tile.n
      else
        let cores := l.effectiveMeshRows * l.effectiveMeshCols
        let share := pt.totalElements / (l.tilingMeshRows * l.tilingMeshCols)
        if l.tilingMeshRows * l.tilingMeshCols = cores then
          cores ∣ pt.totalElements ∧ (share ≤ pt.maxBuf ∨ pt.maxBuf ∣ share)
        else -- a share of the first launch's mesh
          roundUp pt.maxBuf share * cores = pt.totalElements
    else
      let total := pt.shape.getD 0 0 * pt.shape.getD 1 0
      l.effectiveMeshRows ∣ total ∧
        (total / l.effectiveMeshRows ≤ pt.maxBuf ∨ pt.maxBuf ∣ total / l.effectiveMeshRows)
  else
    l.tile.m * l.tile.n ≤ pt.maxBuf ∨
      if 0 < l.convOW then l.convOW ∣ l.tile.m else pt.maxBuf ∣ l.tile.m * l.tile.n

structure Divides : Prop where
  rows : l.effectiveMeshRows ∣ l.macroDimM
  cols : l.effectiveMeshCols ∣ l.macroDimN
  room : l.AutoTiled → l.Room
  m : l.halo = none → RoundsDivide l.hints.groupsM l.effectiveMeshRows l.tile.m l.tileRows
  n : l.halo = none → RoundsDivide l.hints.groupsN l.effectiveMeshCols l.tile.n l.tileCols
  k : l.halo = none → RoundsDivide l.hints.groupsK 1 l.tile.k l.macroDimK
  ports : ∀ pt ∈ l.parsedTensors, l.PortDivides pt

/-! ## The two agree -/

theorem forall₂_of_mapM {α β : Type} {f : α → Option β} : ∀ {as : List α} {bs : List β},
    as.mapM f = some bs → List.Forall₂ (fun a b => f a = some b) as bs := by
  intro as
  induction as with
  | nil =>
    intro bs h
    obtain rfl := some.inj h
    exact .nil
  | cons a as ih =>
    intro bs h
    rw [List.mapM_cons] at h
    obtain ⟨b, hb, h⟩ := bind_eq_some_iff.1 h
    obtain ⟨bs', hbs, h⟩ := bind_eq_some_iff.1 h
    obtain rfl := some.inj h
    exact .cons hb (ih hbs)

theorem forall₂_iff_of_rel {α β : Type} {R S : α → β → Prop} {P : α → Prop} {as : List α} {bs : List β}
    (h : List.Forall₂ R as bs) (hiff : ∀ a b, R a b → (S a b ↔ P a)) : List.Forall₂ S as bs ↔
    ∀ a ∈ as, P a := by
  induction h with
  | nil => exact iff_of_true .nil fun _ ha => nomatch ha
  | cons hab _ ih => rw [List.forall₂_cons, ih, hiff _ _ hab, List.forall_mem_cons]

variable {l} {d : DerivedTilingParams}

/-- Valid parameters: those of the tile, no contradiction in them, and one entry for each port. -/
theorem derive_some (h : l.derive = some d) (hvalid : d.valid = true) :
    l.Complete ∧ l.tileParams.2 = false ∧ ∃ ports,
      List.Forall₂ (fun pt pp => l.portParams l.tileParams.1 pt = some pp) l.parsedTensors ports ∧
      d = { l.tileParams.1 with portParams := ports, convHaloBufSize := l.haloBufSize, valid := true } := by
  unfold derive at h
  split at h
  · rename_i hcomplete
    obtain ⟨ports, hports, h⟩ := bind_eq_some_iff.1 h
    unfold finish at h
    split at h
    · cases h
    · obtain rfl := some.inj h
      have herror : l.tileParams.2 = false := by simpa using hvalid
      refine ⟨hcomplete, herror, ports, forall₂_of_mapM hports, ?_⟩
      rw [herror]
      rfl
  · obtain rfl := some.inj h
    cases hvalid

theorem tileParams_gemm (hhalo : l.halo = none) : l.tileParams = (l.gemmParams, false) := by
  unfold tileParams
  rw [hhalo]

theorem fullK_eq {dimK : ℕ} (hK : 0 < dimK) (d : DerivedTilingParams) :
    d.fullK dimK = { d with effectiveK := dimK, kRounds := 1 } := by
  unfold DerivedTilingParams.fullK
  split
  · rfl
  · rename_i hsame
    have hk : d.effectiveK = dimK := by_contra fun h => hsame ⟨hK, Or.inl h⟩
    have hr : d.kRounds = 1 := by_contra fun h => hsame ⟨hK, Or.inr h⟩
    rw [← hk, ← hr]

/-- A convolution without contradiction: rounds along M from the halo, none along N and K. -/
theorem tileParams_halo {sd : ShimDma} (hhalo : l.halo = some sd) (hrows : 0 < l.tileRows)
    (hcols : 0 < l.tileCols) (hK : 0 < l.macroDimK) (herror : l.tileParams.2 = false) :
    sd.spatialMRounds ∣ l.tileRows ∧
      l.tileParams.1 = { l.gemmParams.liftConv sd with
        tileM := l.tileRows / sd.spatialMRounds, spatialMRounds := sd.spatialMRounds,
        tileN := l.tileCols, spatialNRounds := 1, effectiveK := l.macroDimK, kRounds := 1 } := by
  unfold tileParams at herror ⊢
  rw [hhalo] at herror ⊢
  dsimp only at herror ⊢
  unfold DerivedTilingParams.haloRounds at herror ⊢
  have hrows' : 0 < (l.gemmParams.liftConv sd).tileRows := hrows
  rw [if_pos hrows'] at herror ⊢
  by_cases hmod : (l.gemmParams.liftConv sd).tileRows % sd.spatialMRounds ≠ 0
  · rw [if_pos hmod] at herror
    cases herror
  · rw [if_neg hmod] at herror ⊢
    refine ⟨Nat.dvd_of_mod_eq_zero (not_not.1 hmod), ?_⟩
    rw [fullK_eq hK]
    unfold DerivedTilingParams.pinN
    exact if_pos hcols

theorem tileParams_keeps : l.tileParams.1.tileRows = l.tileRows ∧ l.tileParams.1.tileCols = l.tileCols := by
  unfold tileParams
  split
  · exact ⟨rfl, rfl⟩
  · dsimp only
    unfold DerivedTilingParams.pinN DerivedTilingParams.fullK DerivedTilingParams.haloRounds
    split_ifs <;> exact ⟨rfl, rfl⟩

theorem hintedTile_of_not_explicit (h : ¬l.Explicit) :
    l.hintedTile = ⟨l.tileRows, l.tileCols, l.macroDimK⟩ := by
  unfold hintedTile
  rw [if_neg fun hm => h (Or.inl hm), if_neg fun hn => h (Or.inr (Or.inl hn)),
    if_neg fun hk => h (Or.inr (Or.inr hk))]

theorem AutoTiled.over (h : l.AutoTiled) :
    l.usableMem < computeWorkingSet l.hints.elementBytes ⟨l.tileRows, l.tileCols, l.macroDimK⟩ := by
  rw [← hintedTile_of_not_explicit h.1]
  exact h.2

/-- The search in closed form, where there is room. -/
theorem gemmTile_eq (hK : 0 < l.macroDimK) (hrows : 0 < l.tileRows) (hhalo : l.halo = none)
    (hroom : l.AutoTiled → l.Room) : l.gemmTile = l.tile := by
  unfold gemmTile tile
  rw [hhalo]
  dsimp only
  split
  · rename_i hauto
    have hroomy := hroom hauto
    unfold Room at hroomy
    rw [hhalo] at hroomy
    exact autoTile_eq (elementBytes_pos _) hK hrows hauto.over hroomy
  · rfl

theorem gemmTile_fits_iff (hK : 0 < l.macroDimK) (hrows : 0 < l.tileRows) (hhalo : l.halo = none)
    (hauto : l.AutoTiled) :
    computeWorkingSet l.hints.elementBytes l.gemmTile ≤ l.usableMem ↔ l.Room := by
  unfold gemmTile Room
  rw [hhalo, if_pos hauto]
  exact autoTile_fits_iff (elementBytes_pos _) hK hrows hauto.over

/-- The parameters of the tile are exact if the launch divides; with room the tile is the one in
closed form. -/
structure Agrees (l : Launch) : Prop where
  fits : (l.tileParams.1.autoTiled → computeWorkingSet l.hints.elementBytes l.tileParams.1.tile ≤
    l.usableMem) ↔
    (l.AutoTiled → l.Room)
  tile : (l.AutoTiled → l.Room) → l.tileParams.1.tile = l.tile
  convOW : l.tileParams.1.convOW = l.convOW
  m : l.tileParams.1.tileM * l.tileParams.1.spatialMRounds = l.tileRows ↔ (l.halo = none →
    RoundsDivide l.hints.groupsM l.effectiveMeshRows l.tileParams.1.tileM l.tileRows)
  n : l.tileParams.1.tileN * l.tileParams.1.spatialNRounds = l.tileCols ↔ (l.halo = none →
    RoundsDivide l.hints.groupsN l.effectiveMeshCols l.tileParams.1.tileN l.tileCols)
  k : l.tileParams.1.effectiveK * l.tileParams.1.kRounds = l.macroDimK ↔ (l.halo = none →
    RoundsDivide l.hints.groupsK 1 l.tileParams.1.effectiveK l.macroDimK)

theorem agrees_gemm (hcomplete : l.Complete) (hrows : 0 < l.tileRows) (hhalo : l.halo = none) : l.Agrees := by
  obtain ⟨-, -, hK, hR, hC, -⟩ := hcomplete
  have hp : l.tileParams.1 = l.gemmParams := by rw [tileParams_gemm hhalo]
  constructor
  · rw [hp]
    have hauto : l.gemmParams.autoTiled = true ↔ l.AutoTiled := decide_eq_true_iff
    rw [hauto]
    exact forall_congr' fun h => gemmTile_fits_iff hK hrows hhalo h
  · intro hroom
    rw [hp]
    exact gemmTile_eq hK hrows hhalo hroom
  · rw [hp]
    unfold convOW
    rw [hhalo]
    rfl
  · rw [hp, forall_prop_of_true hhalo]
    exact perCoreSpatialRounds_exact_iff hR ..
  · rw [hp, forall_prop_of_true hhalo]
    exact perCoreSpatialRounds_exact_iff hC ..
  · rw [hp, forall_prop_of_true hhalo, ← perCoreSpatialRounds_exact_iff Nat.one_pos, ← kRounds_eq]
    exact Iff.rfl

theorem agrees_halo {sd : ShimDma} (hcomplete : l.Complete) (hrows : 0 < l.tileRows) (hcols : 0 < l.tileCols)
    (herror : l.tileParams.2 = false) (hhalo : l.halo = some sd) : l.Agrees := by
  obtain ⟨hdvd, hp⟩ := tileParams_halo hhalo hrows hcols hcomplete.2.2.1 herror
  have hnone : l.halo ≠ none := by
    rw [hhalo]
    exact some_ne_none sd
  have htile : l.tileParams.1.tile = l.tile := by
    unfold tile
    rw [hp, hhalo]
    rfl
  constructor
  · have hauto : l.tileParams.1.autoTiled = true ↔ l.AutoTiled := by
      rw [hp]
      exact decide_eq_true_iff
    rw [hauto, htile]
    unfold Room
    rw [hhalo]
  · exact fun _ => htile
  · unfold convOW
    rw [hp, hhalo]
    rfl
  · refine iff_of_true ?_ fun h => absurd h hnone
    rw [hp]
    exact Nat.div_mul_cancel hdvd
  · refine iff_of_true ?_ fun h => absurd h hnone
    rw [hp]
    exact mul_one _
  · refine iff_of_true ?_ fun h => absurd h hnone
    rw [hp]
    exact mul_one _

theorem tile_k_pos (hK : 0 < l.macroDimK) : 0 < l.tile.k := by
  unfold tile
  split
  · exact hK
  · split
    · unfold roomyTile sideTile
      split <;> exact Nat.two_pow_pos _
    · unfold hintedTile
      dsimp only
      split <;> assumption

theorem maxBuf_pos (pt : ParsedTensorInfo) : 0 < pt.maxBuf := by
  unfold ParsedTensorInfo.maxBuf
  split
  · assumption
  · decide

/-- An output's buffers make up its round exactly if what is over the largest buffer is cut evenly. -/
theorem outputParams_exact_iff (p : DerivedTilingParams) (pt : ParsedTensorInfo) :
    (outputParams p pt).numRounds * (outputParams p pt).bufferSize = p.tileM * p.tileN ↔
      p.tileM * p.tileN ≤ pt.maxBuf ∨
        if 0 < p.convOW then p.convOW ∣ p.tileM else pt.maxBuf ∣ p.tileM * p.tileN := by
  unfold outputParams
  split
  · rename_i hle
    simp [hle]
  · rename_i hle
    rw [or_iff_right hle]
    split
    · rename_i hconv
      exact splitBand_exact_iff hconv (Nat.lt_of_not_le hle)
    · rw [splitBuffers_mul, roundUp_eq_iff (maxBuf_pos pt), or_iff_right hle]

/-- An input's likewise; a port that is neither A nor B takes a share of the first launch's mesh. -/
theorem inputParams_exact_iff (hcomplete : l.Complete) {p : DerivedTilingParams} (htile : p.tile = l.tile)
    {pt : ParsedTensorInfo} {pp : PortParams} (hin : pt.isInput = true) (h : l.inputParams p pt = some pp) :
    l.PortExact p pt pp ↔ l.PortDivides pt := by
  obtain ⟨-, -, hK, hR, hC, -⟩ := hcomplete
  have hk : p.effectiveK = l.tile.k := congrArg Tile.k htile
  have hline : 0 < p.effectiveK := hk ▸ tile_k_pos hK
  have hbuf := maxBuf_pos pt
  unfold PortExact PortDivides roundData
  unfold inputParams at h
  rw [if_pos hin, if_pos hin]
  by_cases hslab : pt.IsSlab
  · rw [if_pos hslab] at h ⊢
    obtain rfl := some.inj h
    simp only [if_pos hslab, mul_one, one_mul]
  rw [if_neg hslab] at h ⊢
  rw [if_neg hslab]
  by_cases hres : pt.policyResolved = true
  · rw [if_pos hres] at h ⊢
    rw [if_pos hres]
    by_cases hA : pt.IsA
    · rw [if_pos hA] at h ⊢
      obtain rfl := some.inj h
      rw [if_pos hA, mul_one, splitLines_exact_iff hline, hk, show p.tileM = l.tile.m
        from congrArg Tile.m htile]
    rw [if_neg hA] at h ⊢
    rw [if_neg hA]
    by_cases hB : pt.IsB
    · rw [if_pos hB] at h ⊢
      obtain rfl := some.inj h
      rw [if_pos hB, mul_one, splitLines_exact_iff hline, hk, show p.tileN = l.tile.n
        from congrArg Tile.n htile]
    rw [if_neg hB] at h ⊢
    rw [if_neg hB]
    split at h
    · cases h
    · obtain rfl := some.inj h
      dsimp only
      rw [splitBuffers_mul]
      split
      · rename_i hsame
        rw [hsame]
        exact roundUp_div_mul_eq_iff hbuf (Nat.mul_pos hR hC) _
      · exact Iff.rfl
  · rw [if_neg hres] at h ⊢
    obtain rfl := some.inj h
    rw [if_neg hres, splitBuffers_mul]
    exact roundUp_div_mul_eq_iff hbuf hR _

theorem portExact_iff (hcomplete : l.Complete) {p : DerivedTilingParams} (htile : p.tile = l.tile)
    (hconv : p.convOW = l.convOW) {pt : ParsedTensorInfo} {pp : PortParams}
    (h : l.portParams p pt = some pp) : l.PortExact p pt pp ↔ l.PortDivides pt := by
  obtain ⟨pp', hpp, rfl⟩ := map_eq_some_iff.1 h
  cases hin : pt.isInput with
  | false =>
    rw [hin] at hpp
    obtain rfl := some.inj hpp
    unfold PortExact PortDivides roundData
    simp only [hin, Bool.false_eq_true, if_false, mul_one]
    rw [outputParams_exact_iff, show p.tileM = l.tile.m from congrArg Tile.m htile,
      show p.tileN = l.tile.n from congrArg Tile.n htile, hconv]
  | true =>
    rw [hin, if_pos rfl] at hpp
    have hiff := inputParams_exact_iff hcomplete htile hin hpp
    exact hiff

/-- **The derived tiling.** Parameters marked valid are exact for exactly the launches that divide. -/
theorem exact_iff_divides (h : l.derive = some d) (hvalid : d.valid = true) : l.Exact d ↔ l.Divides := by
  obtain ⟨hcomplete, herror, ports, hports, rfl⟩ := derive_some h hvalid
  obtain ⟨hM, hN, hK, hR, hC, -⟩ := id hcomplete
  obtain ⟨hr, hc⟩ := @tileParams_keeps l
  -- where the mesh divides, no tile is empty
  have hagrees : l.effectiveMeshRows ∣ l.macroDimM → l.effectiveMeshCols ∣ l.macroDimN → l.Agrees := by
    intro hrows hcols
    have hrows' : 0 < l.tileRows := Nat.div_pos (Nat.le_of_dvd hM hrows) hR
    have hcols' : 0 < l.tileCols := Nat.div_pos (Nat.le_of_dvd hN hcols) hC
    cases hhalo : l.halo with
    | none => exact agrees_gemm hcomplete hrows' hhalo
    | some sd => exact agrees_halo hcomplete hrows' hcols' herror hhalo
  constructor
  · intro hx
    have hrows : l.effectiveMeshRows ∣ l.macroDimM := Dvd.intro_left _ hx.rows
    have hcols : l.effectiveMeshCols ∣ l.macroDimN := Dvd.intro_left _ hx.cols
    have ha := hagrees hrows hcols
    have hroom := ha.fits.1 hx.fits
    have htile := ha.tile hroom
    refine ⟨hrows, hcols, hroom, ?_, ?_, ?_, ?_⟩
    · rw [← htile]
      exact ha.m.1 (hx.m.trans hr)
    · rw [← htile]
      exact ha.n.1 (hx.n.trans hc)
    · rw [← htile]
      exact ha.k.1 hx.k
    · exact (forall₂_iff_of_rel hports fun _ _ => portExact_iff hcomplete htile ha.convOW).1 hx.ports
  · intro hd
    have ha := hagrees hd.rows hd.cols
    have htile := ha.tile hd.room
    have hm : l.tileParams.1.tileM = l.tile.m := congrArg Tile.m htile
    have hn : l.tileParams.1.tileN = l.tile.n := congrArg Tile.n htile
    have hk : l.tileParams.1.effectiveK = l.tile.k := congrArg Tile.k htile
    constructor
    · exact (congrArg (· * l.effectiveMeshRows) hr).trans (Nat.div_mul_cancel hd.rows)
    · exact (congrArg (· * l.effectiveMeshCols) hc).trans (Nat.div_mul_cancel hd.cols)
    · exact (ha.m.2 (hm ▸ hd.m)).trans hr.symm
    · exact (ha.n.2 (hn ▸ hd.n)).trans hc.symm
    · exact ha.k.2 (hk ▸ hd.k)
    · exact ha.fits.2 hd.room
    · exact (forall₂_iff_of_rel hports fun _ _ => portExact_iff hcomplete htile ha.convOW).2 hd.ports

end Launch

/-! ## Instances -/

/-- Ports of an 8-bit GEMM without hints: A by rows, B by columns, C gathered. -/
def gemmPorts (m n k : ℕ) : List ParsedTensorInfo :=
  [{ shape := [m, k], elementBitWidth := 8, isInput := true, policyResolved := true },
    { shape := [k, n], elementBitWidth := 8, isInput := true, distribution := .col, policyResolved := true },
    { shape := [m, n], elementBitWidth := 8, isInput := false, pattern := .gather, policyResolved := true }]

def gemmLaunch (m n k usableMem : ℕ) : Launch where
  macroDimM := m
  macroDimN := n
  macroDimK := k
  localMeshRows := 2
  localMeshCols := 2
  tilingMeshRows := 2
  tilingMeshCols := 2
  usableMem := usableMem
  parsedTensors := gemmPorts m n k

def gemmDerived (tileRows tileCols kDim effectiveK kRounds : ℕ) (autoTiled : Bool) (ports : List PortParams) :
    DerivedTilingParams where
  tileRows := tileRows
  tileCols := tileCols
  kDim := kDim
  tileM := tileRows
  tileN := tileCols
  effectiveK := effectiveK
  kRounds := kRounds
  autoTiled := autoTiled
  portParams := ports
  valid := true

/-- A GEMM of 128 by 128 by 1024 in the 48 KB of a core: K is taken in four chunks of 256. -/
theorem exact_gemm :
    ∃ d, (gemmLaunch 128 128 1024 49152).derive = some d ∧ d.valid = true ∧ d.kRounds = 4 ∧
      (gemmLaunch 128 128 1024 49152).Exact d := by
  have hderive : (gemmLaunch 128 128 1024 49152).derive =
      some (gemmDerived 64 64 1024 256 4 true [⟨4, 4096, 1⟩, ⟨4, 4096, 1⟩, ⟨1, 4096, 1⟩]) := by decide +kernel
  have hhalo : (gemmLaunch 128 128 1024 49152).halo = none := by decide
  have htile : (gemmLaunch 128 128 1024 49152).tile = ⟨64, 64, 256⟩ := by
    unfold Launch.tile roomyTile
    rw [← powerOfTwo_eq, hhalo]
    decide +kernel
  refine ⟨_, hderive, rfl, rfl,
    (Launch.exact_iff_divides hderive rfl).2 ⟨by decide, by decide, ?_, ?_, ?_, ?_, ?_⟩⟩
  · intro _
    unfold Launch.Room Roomy
    rw [hhalo]
    decide +kernel
  · intro _
    rw [htile]
    unfold RoundsDivide
    decide +kernel
  · intro _
    rw [htile]
    unfold RoundsDivide
    decide +kernel
  · intro _
    rw [htile]
    unfold RoundsDivide
    decide +kernel
  · unfold Launch.PortDivides
    rw [htile]
    decide +kernel

/-- Valid parameters that lose a row of M, 232 of K, the bound on the memory, or the end of C's transfer. -/
theorem not_exact :
    (∃ d, (gemmLaunch 5 4 4 49152).derive = some d ∧ d.valid = true ∧ d.tileRows * 2 = 4 ∧
      ¬(gemmLaunch 5 4 4 49152).Exact d) ∧
    (∃ d, (gemmLaunch 128 128 1000 49152).derive = some d ∧ d.valid = true ∧ d.effectiveK * d.kRounds = 768 ∧
      ¬(gemmLaunch 128 128 1000 49152).Exact d) ∧
    (∃ d, (gemmLaunch 442 442 2 49152).derive = some d ∧ d.valid = true ∧ d.autoTiled = true ∧
      computeWorkingSet 1 d.tile = 49725 ∧ ¬(gemmLaunch 442 442 2 49152).Exact d) ∧
    ∃ d, (gemmLaunch 130 128 16 49152).derive = some d ∧ d.valid = true ∧ d.tileM * d.tileN = 4160 ∧
      d.portParams[2]? = some ⟨2, 4096, 1⟩ ∧ ¬(gemmLaunch 130 128 16 49152).Exact d := by
  refine ⟨⟨gemmDerived 2 2 4 4 1 false [⟨1, 8, 1⟩, ⟨1, 8, 1⟩, ⟨1, 4, 1⟩], by decide +kernel, rfl, rfl, ?_⟩,
    ⟨gemmDerived 64 64 1000 256 3 true [⟨4, 4096, 1⟩, ⟨4, 4096, 1⟩, ⟨1, 4096, 1⟩],
      by decide +kernel, rfl, rfl, ?_⟩,
    ⟨gemmDerived 221 221 2 2 1 true [⟨1, 442, 1⟩, ⟨1, 442, 1⟩, ⟨12, 4096, 1⟩],
      by decide +kernel, rfl, rfl, by decide, ?_⟩,
    ⟨gemmDerived 65 64 16 16 1 false [⟨1, 1040, 1⟩, ⟨1, 1024, 1⟩, ⟨2, 4096, 1⟩],
      by decide +kernel, rfl, by decide, rfl,
      ?_⟩⟩
  · exact fun h => absurd h.rows (by decide)
  · exact fun h => absurd h.k (by decide)
  · exact fun h => absurd (h.fits rfl) (by decide)
  · intro h
    have hout := (List.forall₂_cons.1 (List.forall₂_cons.1 (List.forall₂_cons.1 h.ports).2).2).1
    unfold Launch.PortExact at hout
    exact absurd hout (by decide)

end AieHlc.Front
