import AieHlc.Alloc.Grant
import Mathlib.Data.List.Basic
import Mathlib.Data.Set.Basic
import Mathlib.Logic.Function.Basic

/-!
# Buffer descriptors of the lowered flows

Each tile has a pool of buffer descriptors. Lowering a flow takes one on its shim tile, one for each
core tile when the flow gathers, and one or two on each core tile it visits; the first free one is
taken. When the pool of a tile is used up, the lowering does not stop but puts a fixed number in
place of a descriptor.

* `lowerFlows`: the descriptors a list of flows uses, in the order they are taken.
* `Lowers`: what lowering keeps: the descriptors that come from the pools are granted once.
* `bds_distinct`: descriptors are never shared when each flow finds the free descriptors it asks for.
* `owned_kept`: a descriptor stays with its owner.
-/

namespace AieHlc.Lower.BdPool

open Function List AieHlc.Alloc

abbrev TilePos := ℤ × ℤ

structure BdSlot where
  used : Bool := false
  ownerId : ℤ := -1
  deriving DecidableEq, Repr

/-! ## The pool of a tile -/

def allocateBd (ownerId : ℤ) (bdPool : List BdSlot) : Option (ℕ × List BdSlot) :=
  match bdPool.findIdx? fun slot => !slot.used with
  | some i => some (i, bdPool.set i ⟨true, ownerId⟩)
  | none => none

def releaseBd (bdId ownerId : ℤ) (bdPool : List BdSlot) : Bool × List BdSlot :=
  if bdId < 0 then (false, bdPool)
  else
    match bdPool[bdId.toNat]? with
    | none => (false, bdPool)
    | some slot =>
      if slot.used = false then (false, bdPool)
      else if ownerId ≥ 0 ∧ slot.ownerId ≠ ownerId then (false, bdPool)
      else (true, bdPool.set bdId.toNat ⟨false, -1⟩)

def reserveBd (bdId ownerId : ℤ) (bdPool : List BdSlot) : Bool × List BdSlot :=
  if bdId < 0 then (false, bdPool)
  else
    match bdPool[bdId.toNat]? with
    | none => (false, bdPool)
    | some slot =>
      if slot.used = true ∧ slot.ownerId ≠ ownerId then (false, bdPool)
      else (true, bdPool.set bdId.toNat ⟨true, ownerId⟩)

/-- The pools of all tiles; a tile outside the grid has none. -/
abbrev BdPools := TilePos → List BdSlot

def allocateTileBd (t : TilePos) (ownerId : ℤ) (p : BdPools) : Option ℕ × BdPools :=
  match allocateBd ownerId (p t) with
  | some (i, bdPool) => (some i, update p t bdPool)
  | none => (none, p)

/-! ## Lowering a flow -/

/-- A descriptor used by a flow; `granted` when it comes from the pool. -/
structure BdUse where
  tile : TilePos
  id : ℤ
  granted : Bool
  deriving DecidableEq, Repr

/-- A core tile of a flow. -/
structure CoreVisit where
  tile : TilePos
  ppDepth : ℤ
  deriving DecidableEq, Repr

/-- What of a flow decides its descriptors. -/
structure BdFlow where
  flowIndex : ℤ
  shimTile : TilePos
  shimChannel : ℤ
  /-- the flow gathers several core tiles, out of order -/
  useOOO : Bool
  /-- number of tiles in the core tile group -/
  groupSize : ℕ
  /-- the core's own descriptors are set up by the core -/
  offloadCoreDmaConfig : Bool
  cores : List CoreVisit
  deriving DecidableEq, Repr

def BdFlow.numCoreTiles (f : BdFlow) : ℕ := if f.groupSize ≤ 0 then 1 else f.groupSize

/-- A descriptor of the pool, or the number `fallback` when there is none. -/
def takeBd (f : BdFlow) (t : TilePos) (fallback : ℤ) (p : BdPools) : BdUse × BdPools :=
  match allocateTileBd t f.flowIndex p with
  | (some i, p') => (⟨t, i, true⟩, p')
  | (none, p') => (⟨t, fallback, false⟩, p')

/-- The descriptor of the shim tile, or its channel number. -/
def computeShimBdParams (f : BdFlow) (p : BdPools) : BdUse × BdPools := takeBd f f.shimTile f.shimChannel p

/-- One descriptor for each of `n` gathered tiles from tile `t` on, or that many from the flow's first one. -/
def emitShimBdOoo (f : BdFlow) (shimBdIdVal : ℤ) : ℕ → ℕ → BdPools → List BdUse × BdPools
  | 0, _, p => ([], p)
  | n + 1, t, p =>
    let (u, p₁) := takeBd f f.shimTile (shimBdIdVal + t) p
    let (us, p₂) := emitShimBdOoo f shimBdIdVal n (t + 1) p₁
    (u :: us, p₂)

/-- A gathering flow has its first descriptor in no use. -/
def emitShimBds (f : BdFlow) (p : BdPools) : List BdUse × BdPools :=
  let (shim, p₁) := computeShimBdParams f p
  if f.useOOO = true ∧ f.numCoreTiles > 1 then emitShimBdOoo f shim.id f.numCoreTiles 0 p₁ else ([shim], p₁)

def emitCoreSingleBufferBd (f : BdFlow) (t : TilePos) (p : BdPools) : List BdUse × BdPools :=
  let (u, p₁) := takeBd f t 0 p
  ([u], p₁)

/-- Ping and pong: both from the pool, or 0 and 1. -/
def emitCorePingPongBd (f : BdFlow) (t : TilePos) (p : BdPools) : List BdUse × BdPools :=
  let (bd0, p₁) := allocateTileBd t f.flowIndex p
  let (bd1, p₂) := allocateTileBd t f.flowIndex p₁
  match bd0, bd1 with
  | some i, some j => ([⟨t, i, true⟩, ⟨t, j, true⟩], p₂)
  | _, _ => ([⟨t, 0, false⟩, ⟨t, 1, false⟩], p₂)

/-- Two descriptors set aside for the core, as far as there are any. -/
def reserveOffloadedCoreBds (f : BdFlow) (t : TilePos) (p : BdPools) : List BdUse × BdPools :=
  match allocateTileBd t f.flowIndex p with
  | (none, p₁) => ([], p₁)
  | (some i, p₁) =>
    match allocateTileBd t f.flowIndex p₁ with
    | (none, p₂) => ([⟨t, i, true⟩], p₂)
    | (some j, p₂) => ([⟨t, i, true⟩, ⟨t, j, true⟩], p₂)

def kOffloadCoreRowMin : ℤ := 2

/-- The core sets up the descriptors of the visit itself. -/
def CoreVisit.Offloaded (f : BdFlow) (c : CoreVisit) : Prop :=
  f.offloadCoreDmaConfig = true ∧ c.tile.1 ≥ kOffloadCoreRowMin

instance (f : BdFlow) (c : CoreVisit) : Decidable (c.Offloaded f) := inferInstanceAs (Decidable (_ ∧ _))

def emitCoreBds (f : BdFlow) (c : CoreVisit) (p : BdPools) : List BdUse × BdPools :=
  if c.Offloaded f then reserveOffloadedCoreBds f c.tile p
  else if c.ppDepth = 1 then emitCoreSingleBufferBd f c.tile p
  else emitCorePingPongBd f c.tile p

/-- One after the other, the uses in order. -/
def emitAll {α : Type} (emit : α → BdPools → List BdUse × BdPools) : List α → BdPools → List BdUse × BdPools
  | [], p => ([], p)
  | a :: rest, p =>
    let (us, p₁) := emit a p
    let (vs, p₂) := emitAll emit rest p₁
    (us ++ vs, p₂)

/-- The shim tile first, then the core tiles. -/
def lowerFlow (f : BdFlow) (p : BdPools) : List BdUse × BdPools :=
  let (us, p₁) := emitShimBds f p
  let (vs, p₂) := emitAll (emitCoreBds f) f.cores p₁
  (us ++ vs, p₂)

def lowerFlows (flows : List BdFlow) (p : BdPools) : List BdUse × BdPools := emitAll lowerFlow flows p

/-! ## What lowering keeps -/

def BdUse.key (u : BdUse) : TilePos × ℤ := (u.tile, u.id)

def heldBds (p : BdPools) : Set (TilePos × ℤ) :=
  {k | ∃ (i : ℕ) (slot : BdSlot), (p k.1)[i]? = some slot ∧ slot.used = true ∧ k.2 = i}

def grantedKeys (us : List BdUse) : List (TilePos × ℤ) := (us.filter fun u => u.granted).map BdUse.key

/-- From `p` to `p'` the uses `us` are lowered. -/
structure Lowers (p p' : BdPools) (us : List BdUse) : Prop where
  grants : Grants heldBds p p' (grantedKeys us)
  size : ∀ t, (p' t).length = (p t).length

variable {p p' p'' : BdPools} {us vs : List BdUse} {t : TilePos} {owner : ℤ} {i : ℕ} {f : BdFlow}

theorem allocateBd_some {l l' : List BdSlot} (h : allocateBd owner l = some (i, l')) :
    (∃ slot, l[i]? = some slot ∧ slot.used = false) ∧ l' = l.set i ⟨true, owner⟩ := by
  unfold allocateBd at h
  split at h
  case h_1 j hj =>
    cases h
    obtain ⟨hlt, hfree, -⟩ := findIdx?_eq_some_iff_getElem.1 hj
    refine ⟨⟨l[i], getElem?_eq_getElem hlt, ?_⟩, rfl⟩
    simpa using hfree
  case h_2 => cases h

theorem grantedKeys_append (us vs : List BdUse) :
    grantedKeys (us ++ vs) = grantedKeys us ++ grantedKeys vs := by
  rw [grantedKeys, filter_append, map_append]
  rfl

theorem Lowers.nil (p : BdPools) : Lowers p p [] := ⟨Grants.none subset_rfl, fun _ => rfl⟩

theorem Lowers.trans (h : Lowers p p' us) (h' : Lowers p' p'' vs) : Lowers p p'' (us ++ vs) := by
  constructor
  · rw [grantedKeys_append]
    exact h.grants.trans h'.grants
  · intro t
    rw [h'.size, h.size]

theorem Lowers.sublist (h : Lowers p p' us) (hl : vs.Sublist us) : Lowers p p' vs :=
  ⟨h.grants.sublist ((hl.filter _).map _), h.size⟩

theorem Lowers.fallback (h : Lowers p p' us) (hv : ∀ v ∈ vs, v.granted = false) : Lowers p p' vs := by
  have hnil : vs.filter (fun u => u.granted) = [] := by
    apply filter_eq_nil_iff.2
    intro v hmem htrue
    rw [hv v hmem] at htrue
    cases htrue
  refine ⟨?_, h.size⟩
  rw [grantedKeys, hnil]
  exact Grants.none h.grants.keep

/-! ### The emitters -/

/-- The descriptor lies in the pool of its tile. -/
def BdUse.InPool (p : BdPools) (u : BdUse) : Prop := 0 ≤ u.id ∧ u.id < (p u.tile).length

/-- No two uses on a tile share a descriptor, and all lie in the pools. -/
structure BdDistinct (p : BdPools) (us : List BdUse) : Prop where
  inPool : ∀ u ∈ us, u.InPool p
  apart : us.Pairwise fun u v => u.tile = v.tile → u.id ≠ v.id

theorem inPool_of_held {u : BdUse} (h : u.key ∈ heldBds p) : u.InPool p := by
  obtain ⟨i, slot, hi, -, hid⟩ := h
  have hlt := (List.getElem?_eq_some_iff.1 hi).1
  have hid : u.id = i := hid
  have hlt : i < (p u.tile).length := hlt
  constructor <;> omega

theorem Lowers.granted_inPool (h : Lowers p p' us) {u : BdUse} (hu : u ∈ us)
    (hg : u.granted = true) : u.InPool p := by
  have hkey : u.key ∈ grantedKeys us := mem_map_of_mem (mem_filter.2 ⟨hu, hg⟩)
  have hin := inPool_of_held (h.grants.taken _ hkey)
  unfold BdUse.InPool at hin ⊢
  rw [h.size] at hin
  exact hin

theorem Lowers.granted_apart (h : Lowers p p' us) :
    us.Pairwise fun u v => u.granted = true → v.granted = true → u.key ≠ v.key := by
  have hnodup := h.grants.nodup
  rw [grantedKeys, nodup_iff_pairwise_ne, pairwise_map, pairwise_filter] at hnodup
  exact hnodup

theorem Lowers.distinct (h : Lowers p p' us) (hg : ∀ u ∈ us, u.granted = true) : BdDistinct p us := by
  refine ⟨fun u hu => h.granted_inPool hu (hg u hu), ?_⟩
  apply h.granted_apart.imp_of_mem
  intro u v hu hv hne htile hid
  exact hne (hg u hu) (hg v hv) (Prod.ext htile hid)

/-! ## Room in the pools -/

/-- Number of free descriptors of a tile. -/
def freeBds (bdPool : List BdSlot) : ℕ := bdPool.countP fun slot => !slot.used

/-- Each tile has a free descriptor for every time it is listed. -/
def Room (p : BdPools) (ts : List TilePos) : Prop := ∀ t, ts.count t ≤ freeBds (p t)

/-- A visit needs one descriptor, or one for ping and one for pong; an offloaded one makes do with
what there is. -/
def CoreVisit.asks (f : BdFlow) (c : CoreVisit) : List TilePos :=
  if c.Offloaded f then [] else if c.ppDepth = 1 then [c.tile] else [c.tile, c.tile]

def BdFlow.shimAsks (f : BdFlow) : List TilePos :=
  f.shimTile :: if f.useOOO = true ∧ f.numCoreTiles > 1 then replicate f.numCoreTiles f.shimTile else []

/-- The tiles a flow needs descriptors of, each as often as it needs one. -/
def BdFlow.asks (f : BdFlow) : List TilePos := f.shimAsks ++ f.cores.flatMap (CoreVisit.asks f)

/-- Before each flow is lowered, the pools have room for it. -/
def RunHasRoom : List BdFlow → BdPools → Prop
  | [], _ => True
  | f :: flows, p => Room p f.asks ∧ RunHasRoom flows (lowerFlow f p).2

section Room

variable {ts : List TilePos}

theorem allocateBd_free (owner : ℤ) {l : List BdSlot} (h : 0 < freeBds l) :
    ∃ i l', allocateBd owner l = some (i, l') ∧ freeBds l' + 1 = freeBds l := by
  have hfound : (l.findIdx? fun slot => !slot.used).isSome := by
    rw [findIdx?_isSome, any_eq_true]
    exact countP_pos_iff.1 h
  obtain ⟨i, hi⟩ := Option.isSome_iff_exists.1 hfound
  obtain ⟨hlt, hfree, -⟩ := findIdx?_eq_some_iff_getElem.1 hi
  refine ⟨i, l.set i ⟨true, owner⟩, by rw [allocateBd, hi], ?_⟩
  have hset : freeBds (l.set i ⟨true, owner⟩) = freeBds l - 1 := by
    rw [freeBds, countP_set hlt, if_pos hfree]
    rfl
  omega

theorem allocateTileBd_frame {u : TilePos} {bd : Option ℕ} (h : allocateTileBd t owner p = (bd, p'))
    (hu : u ≠ t) :
    p' u = p u := by
  unfold allocateTileBd at h
  split at h <;> cases h
  · exact update_of_ne hu _ _
  · rfl

theorem Room.allocate (h : Room p (t :: ts)) (owner : ℤ) :
    ∃ i p', allocateTileBd t owner p = (some i, p') ∧ Room p' ts := by
  have ht := h t
  rw [count_cons_self] at ht
  obtain ⟨i, l', hl, hfree⟩ := allocateBd_free owner (l := p t) (by omega)
  refine ⟨i, update p t l', by rw [allocateTileBd, hl], fun u => ?_⟩
  by_cases hu : u = t
  · rw [hu, update_self]
    omega
  · have hother := h u
    rw [count_cons_of_ne (Ne.symm hu)] at hother
    rwa [update_of_ne hu]

theorem Room.takeBd (h : Room p (t :: ts)) (fallback : ℤ) :
    (takeBd f t fallback p).1.granted = true ∧ Room (takeBd f t fallback p).2 ts := by
  obtain ⟨i, p', hal, hroom⟩ := h.allocate _
  rw [BdPool.takeBd, hal]
  exact ⟨rfl, hroom⟩

theorem Room.emitShimBdOoo (shimBdIdVal : ℤ) :
    ∀ (n k : ℕ) (p : BdPools), Room p (replicate n f.shimTile ++ ts) →
    (∀ u ∈ (emitShimBdOoo f shimBdIdVal n k p).1, u.granted = true) ∧
      Room (emitShimBdOoo f shimBdIdVal n k p).2 ts := by
  intro n
  induction n with
  | zero => exact fun k p h => ⟨by simp [BdPool.emitShimBdOoo], h⟩
  | succ n ih =>
    intro k p h
    obtain ⟨hfirst, hrest⟩ := h.takeBd (shimBdIdVal + k)
    obtain ⟨hall, hroom⟩ := ih (k + 1) _ hrest
    exact ⟨forall_mem_cons.2 ⟨hfirst, hall⟩, hroom⟩

theorem Room.emitShimBds (h : Room p (f.shimAsks ++ ts)) :
    (∀ u ∈ (emitShimBds f p).1, u.granted = true) ∧ Room (emitShimBds f p).2 ts := by
  unfold BdFlow.shimAsks at h
  obtain ⟨hfirst, hrest⟩ := h.takeBd (f := f) f.shimChannel
  unfold BdPool.emitShimBds computeShimBdParams
  split at hrest
  case isTrue hooo =>
    simp only [if_pos hooo]
    exact Room.emitShimBdOoo _ _ _ _ hrest
  case isFalse hooo =>
    simp only [if_neg hooo]
    exact ⟨fun u hu => mem_singleton.1 hu ▸ hfirst, hrest⟩

/-- An offloaded visit uses only what the pool gave, and leaves the other tiles as they were. -/
theorem reserveOffloadedCoreBds_frame (f : BdFlow) (t : TilePos) (p : BdPools) :
    (∀ u ∈ (reserveOffloadedCoreBds f t p).1, u.granted = true) ∧
      ∀ u, u ≠ t → (reserveOffloadedCoreBds f t p).2 u = p u := by
  unfold reserveOffloadedCoreBds
  split
  case h_1 p₁ h₀ => exact ⟨by simp, fun u hu => allocateTileBd_frame h₀ hu⟩
  case h_2 i p₁ h₀ =>
    split
    all_goals
      rename_i h₁
      exact ⟨by simp, fun u hu => (allocateTileBd_frame h₁ hu).trans (allocateTileBd_frame h₀ hu)⟩

theorem Room.reserveOffloaded (h : Room p ts) (ht : t ∉ ts) : Room (reserveOffloadedCoreBds f t p).2 ts := by
  intro u
  by_cases hu : u = t
  · rw [hu, count_eq_zero_of_not_mem ht]
    exact Nat.zero_le _
  · rw [(reserveOffloadedCoreBds_frame f t p).2 u hu]
    exact h u

theorem Room.emitCorePingPongBd (h : Room p (t :: t :: ts)) :
    (∀ u ∈ (emitCorePingPongBd f t p).1, u.granted = true) ∧ Room (emitCorePingPongBd f t p).2 ts := by
  obtain ⟨i, p₁, h₀, hroom₀⟩ := h.allocate f.flowIndex
  obtain ⟨j, p₂, h₁, hroom₁⟩ := hroom₀.allocate f.flowIndex
  simp only [BdPool.emitCorePingPongBd, h₀, h₁]
  exact ⟨by simp, hroom₁⟩

theorem Room.emitCoreBds {c : CoreVisit} (h : Room p (c.asks f ++ ts)) (hoff : c.Offloaded f → c.tile ∉ ts) :
    (∀ u ∈ (emitCoreBds f c p).1, u.granted = true) ∧ Room (emitCoreBds f c p).2 ts := by
  unfold CoreVisit.asks at h
  unfold BdPool.emitCoreBds
  by_cases ho : c.Offloaded f
  · rw [if_pos ho] at h ⊢
    exact ⟨(reserveOffloadedCoreBds_frame f c.tile p).1, h.reserveOffloaded (hoff ho)⟩
  · rw [if_neg ho] at h ⊢
    split at h
    case isTrue hdepth =>
      rw [if_pos hdepth]
      obtain ⟨hgranted, hroom⟩ := h.takeBd (f := f) 0
      exact ⟨fun u hu => mem_singleton.1 hu ▸ hgranted, hroom⟩
    case isFalse hdepth =>
      rw [if_neg hdepth]
      exact Room.emitCorePingPongBd h

/-- Whether a visit is offloaded depends on its tile only, so no later visit of the flow asks for
that tile. -/
theorem CoreVisit.Offloaded.not_mem_asks {c : CoreVisit} (h : c.Offloaded f) (cores : List CoreVisit) :
    c.tile ∉ cores.flatMap (CoreVisit.asks f) := by
  intro hmem
  obtain ⟨d, -, hd⟩ := mem_flatMap.1 hmem
  unfold CoreVisit.asks at hd
  split at hd
  case isTrue => cases hd
  case isFalse hno =>
    have htile : c.tile = d.tile := by split at hd <;> simpa using hd
    exact hno ⟨h.1, htile ▸ h.2⟩

theorem Room.emitCores : ∀ (cores : List CoreVisit) (p : BdPools), Room p (cores.flatMap (CoreVisit.asks f)) →
    ∀ u ∈ (emitAll (BdPool.emitCoreBds f) cores p).1, u.granted = true := by
  intro cores
  induction cores with
  | nil => intro p _ u hu; cases hu
  | cons c cores ih =>
    intro p h
    obtain ⟨hfirst, hrest⟩ := Room.emitCoreBds h fun ho => ho.not_mem_asks cores
    exact forall_mem_append.2 ⟨hfirst, ih _ hrest⟩

/-- **With room for a flow**, the lowering puts no number in place of a descriptor. -/
theorem Room.lowerFlow (h : Room p f.asks) : ∀ u ∈ (lowerFlow f p).1, u.granted = true := by
  obtain ⟨hshim, hcores⟩ := Room.emitShimBds h
  exact forall_mem_append.2 ⟨hshim, Room.emitCores f.cores _ hcores⟩

theorem RunHasRoom.granted : ∀ {flows : List BdFlow} {p : BdPools}, RunHasRoom flows p →
    ∀ u ∈ (lowerFlows flows p).1, u.granted = true := by
  intro flows
  induction flows with
  | nil => intro p _ u hu; cases hu
  | cons f flows ih =>
    intro p h
    exact forall_mem_append.2 ⟨h.1.lowerFlow, ih h.2⟩

end Room

inductive BdCall where
  | allocate (ownerId : ℤ)
  | release (bdId ownerId : ℤ)
  | reserve (bdId ownerId : ℤ)

/-- The pool of a tile after a call. -/
def BdCall.run (bdPool : List BdSlot) : BdCall → List BdSlot
  | .allocate ownerId => ((allocateBd ownerId bdPool).map Prod.snd).getD bdPool
  | .release bdId ownerId => (releaseBd bdId ownerId bdPool).2
  | .reserve bdId ownerId => (reserveBd bdId ownerId bdPool).2

theorem BdCall.run_owned {l : List BdSlot} {c : BdCall} (hc : ∀ o, c = .release i o → 0 ≤ o ∧ o ≠ owner)
    (h : l[i]? = some ⟨true, owner⟩) : (c.run l)[i]? = some ⟨true, owner⟩ := by
  cases c with
  | allocate o =>
    rw [run]
    cases hal : allocateBd o l with
    | none => exact h
    | some r =>
      obtain ⟨⟨slot, hslot, hfree⟩, hset⟩ := allocateBd_some hal
      have hne : r.1 ≠ i := by
        rintro rfl
        obtain rfl := Option.some.inj (h.symm.trans hslot)
        cases hfree
      rw [Option.map_some, Option.getD_some, hset, getElem?_set_ne hne, h]
  | release bdId o =>
    by_cases hid : bdId = i
    · have ho := hc o (hid ▸ rfl)
      unfold run releaseBd
      grind
    · unfold run releaseBd
      grind
  | reserve bdId o =>
    unfold run reserveBd
    grind

/-- **A descriptor stays with its owner** through all calls, unless it is released by the owner or
in no one's name. -/
theorem owned_kept {l : List BdSlot} {cs : List BdCall} (hcs : ∀ o, .release i o ∈ cs → 0 ≤ o ∧ o ≠ owner)
    (h : l[i]? = some ⟨true, owner⟩) : (cs.foldl BdCall.run l)[i]? = some ⟨true, owner⟩ := by
  induction cs generalizing l with
  | nil => exact h
  | cons c cs ih =>
    apply ih fun o hin => hcs o (mem_cons_of_mem c hin)
    exact BdCall.run_owned (fun o heq => hcs o (heq ▸ mem_cons_self)) h

/-- A descriptor of the control plane, and two flows that ask for it; another one is released in no
one's name. -/
theorem owned_kept_control :
    ([BdCall.allocate 0, .allocate 1, .reserve 0 1, .release 0 1, .release 1 (-1)].foldl
    BdCall.run [⟨true, -2⟩, {}, {}])[0]? = some ⟨true, -2⟩ :=
  owned_kept (by simp) rfl

end AieHlc.Lower.BdPool
