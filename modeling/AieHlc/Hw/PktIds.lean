import AieHlc.Control.ShimRow
import AieHlc.Hw.Planes
import Mathlib.Data.List.GetD
import Mathlib.Data.List.Induction

/-!
# Packet ids of data flows and of the control plane

The manager hands out packet ids from a pool of 32. `reserveControlPlaneResources` takes the ids of
the reservation table out of it; after that, data flows allocate and release ids in any order.

* `allocatePktId`, `releasePktId`, `PktRun`: the calls, and the ids in use after some of them.
* `Armed`: a slot that one of the two control planners arms.
* `PktIdsSafe`: no data id is matched by an armed slot, no id has two users, releases are the owner's.
* `OwnWildcards`: releases with a negative owner, which the code does not check, are the owner's all the same.
* **`pktIds_safe_iff`**: the ids are safe exactly when none is handed out and the unchecked releases
  are the owner's.
-/

namespace AieHlc.Hw

open Option List AieHlc.Route AieHlc.Control AieHlc.Fabric

variable {pool : List PktIdSlot} {o : ℤ} {m m' : Manager}

/-! ### The pool -/

/-- `allocatePktId`. -/
def allocatePktId (pool : List PktIdSlot) (ownerId : ℤ) : Option (ℕ × List PktIdSlot) :=
  ((List.range' 1 (kMaxPktId - 1)).find? fun i => pool[i]?.any fun slot => !slot.used).map fun i =>
    (i, pool.set i ⟨true, ownerId⟩)

/-- `releasePktId`: none where it returns false. A negative owner is not compared. -/
def releasePktId (pool : List PktIdSlot) (pktId ownerId : ℤ) : Option (List PktIdSlot) :=
  if pktId < 0 ∨ pktId ≥ kMaxPktId then none
  else
    let slot := pool.getD pktId.toNat {}
    if slot.used = false then none
    else if ownerId ≥ 0 ∧ slot.ownerId ≠ ownerId then none
    else some (pool.set pktId.toNat ⟨false, -1⟩)

/-- A call for a data flow. -/
inductive PktCall where
  | allocate (ownerId : ℤ)
  | release (pktId ownerId : ℤ)

/-- The pool, the ids in use with their users, and the ids handed out so far. An id is in use until
its user releases it. -/
structure PktRun where
  pool : List PktIdSlot
  inUse : List (ℕ × ℤ)
  handed : List ℕ

namespace PktRun

/-- The ids of a pool that are in use when the calls begin. -/
def start (pool : List PktIdSlot) : PktRun where
  pool := pool
  inUse := (range pool.length).filterMap fun i => pool[i]?.bind fun slot =>
    if slot.used then some (i, slot.ownerId) else none
  handed := []

def step (s : PktRun) : PktCall → PktRun
  | .allocate o => match allocatePktId s.pool o with
    | none => s
    | some (i, pool) => ⟨pool, (i, o) :: s.inUse, i :: s.handed⟩
  | .release id o => match releasePktId s.pool id o with
    | none => s
    | some pool => { s with pool, inUse := s.inUse.filter fun k => k ≠ (id.toNat, o) }

def run (s : PktRun) (cs : List PktCall) : PktRun := cs.foldl step s

/-- The release frees an id that is not its owner's. -/
def Steals (s : PktRun) : PktCall → Prop
  | .allocate _ => False
  | .release id o => (releasePktId s.pool id o).isSome ∧ (s.pool.getD id.toNat {}).ownerId ≠ o

end PktRun

/-! ### Safety -/

/-- A slot that the row planner or the shim-row planner arms. -/
def Armed (op : AcrOp) : Prop := op.kind = .slot ∧
  ((∃ shimCol ctrlId rows ops, planRows shimCol ctrlId rows = .ok ops ∧ op ∈ ops) ∨
    ∃ colLo colHi ops, planShimRow colLo colHi = .ok ops ∧ op ∈ ops)

def AcrOp.Matches (op : AcrOp) (id : ℕ) : Prop := Slot.Takes ⟨op.pktId, op.mask, op.msel, op.arbiter⟩ id

/-- **The ids of data flows are safe** after any of the calls. -/
structure PktIdsSafe (pool : List PktIdSlot) (cs : List PktCall) : Prop where
  unmatched : ∀ id ∈ ((PktRun.start pool).run cs).handed, ∀ op, Armed op → ¬AcrOp.Matches op id
  distinct : ∀ pre, pre <+: cs → (((PktRun.start pool).run pre).inUse.map Prod.fst).Nodup
  releases : ∀ pre c, pre ++ [c] <+: cs → ¬((PktRun.start pool).run pre).Steals c

/-- The releases with a negative owner free no other's id. -/
def OwnWildcards (pool : List PktIdSlot) (cs : List PktCall) : Prop :=
  ∀ pre id o, pre ++ [PktCall.release id o] <+: cs → o < 0 → ¬((PktRun.start pool).run pre).Steals
    (.release id o)

/-- The call is not in the name of the control plane. -/
def PktCall.IsData : PktCall → Prop
  | .allocate o => o ≠ kControlPlaneOwner
  | .release _ o => o ≠ kControlPlaneOwner

/-! ### What a call does -/

section Calls

variable {pool pool' : List PktIdSlot} {i : ℕ} {id o : ℤ}

theorem allocatePktId_some (h : allocatePktId pool o = some (i, pool')) :
    1 ≤ i ∧ i < kMaxPktId ∧ i < pool.length ∧ (∀ o', pool[i]? ≠ some ⟨true, o'⟩) ∧
    pool' = pool.set i ⟨true, o⟩ := by
  obtain ⟨j, hfind, hj⟩ := map_eq_some_iff.1 h
  obtain ⟨rfl, rfl⟩ := Prod.mk.inj hj
  have hmem := mem_of_find?_eq_some hfind
  rw [mem_range'_1] at hmem
  have hany := @find?_some ℕ (fun i => pool[i]?.any fun slot => !slot.used) _ _ hfind
  cases hslot : pool[j]? with
  | none =>
    rw [hslot] at hany
    cases hany
  | some slot =>
    rw [hslot] at hany
    refine ⟨hmem.1, by unfold kMaxPktId at *; omega, (List.getElem?_eq_some_iff.1 hslot).1, ?_, rfl⟩
    intro o' ho'
    rw [some.inj ho'] at hany
    exact absurd hany (by simp)

theorem releasePktId_some (hlen : pool.length = kMaxPktId) (h : releasePktId pool id o = some pool') :
    ∃ owner, pool[id.toNat]? = some ⟨true, owner⟩ ∧ (pool.getD id.toNat {}).ownerId = owner ∧
    (0 ≤ o → owner = o) ∧
      pool' = pool.set id.toNat ⟨false, -1⟩ := by
  unfold releasePktId at h
  by_cases hrange : id < 0 ∨ id ≥ kMaxPktId
  · rw [if_pos hrange] at h
    cases h
  rw [if_neg hrange] at h
  dsimp only at h
  have hlt : id.toNat < pool.length := by
    rw [hlen]
    omega
  have hget : pool.getD id.toNat {} = pool[id.toNat] := getD_eq_getElem _ _ hlt
  by_cases hused : (pool.getD id.toNat {}).used = false
  · rw [if_pos hused] at h
    cases h
  rw [if_neg hused] at h
  by_cases hother : o ≥ 0 ∧ (pool.getD id.toNat {}).ownerId ≠ o
  · rw [if_pos hother] at h
    cases h
  rw [if_neg hother] at h
  refine ⟨(pool.getD id.toNat {}).ownerId, ?_, rfl, ?_, (some.inj h).symm⟩
  · rw [hget] at hused ⊢
    rw [getElem?_eq_getElem hlt, ← Bool.eq_true_of_not_eq_false hused]
  · intro ho
    by_contra hne
    exact hother ⟨ho, hne⟩

end Calls

/-! ### The ids in use -/

section InUse

/-- The ids in use are those of the pool, each with one user. -/
structure PktRun.Ok (s : PktRun) : Prop where
  len : s.pool.length = kMaxPktId
  nodup : (s.inUse.map Prod.fst).Nodup
  mem : ∀ i o, (i, o) ∈ s.inUse ↔ s.pool[i]? = some ⟨true, o⟩

theorem sublist_filterMap_fst {α : Type} {f : ℕ → Option (ℕ × α)} (hf : ∀ i p, f i = some p → p.1 = i) :
    ∀ l : List ℕ, ((l.filterMap f).map Prod.fst).Sublist l := by
  intro l
  induction l with
  | nil => exact List.Sublist.refl _
  | cons i l ih =>
    cases hi : f i with
    | none =>
      rw [filterMap_cons_none hi]
      exact ih.cons _
    | some p =>
      rw [filterMap_cons_some hi, map_cons, hf i p hi]
      exact ih.cons_cons _

theorem PktRun.start_ok (hlen : pool.length = kMaxPktId) : (PktRun.start pool).Ok := by
  refine ⟨hlen, ?_, ?_⟩
  · refine List.Nodup.sublist (sublist_filterMap_fst ?_ _) nodup_range
    intro i p hp
    obtain ⟨slot, _, hslot⟩ := bind_eq_some_iff.1 hp
    by_cases hu : slot.used
    · rw [if_pos hu] at hslot
      rw [← some.inj hslot]
    · rw [if_neg hu] at hslot
      cases hslot
  · intro i o
    show (i, o) ∈ List.filterMap _ _ ↔ _
    rw [mem_filterMap]
    constructor
    · rintro ⟨j, _, hj⟩
      obtain ⟨⟨used, owner⟩, hget, hslot⟩ := bind_eq_some_iff.1 hj
      cases used with
      | false => cases hslot
      | true =>
        obtain ⟨rfl, rfl⟩ := Prod.mk.inj (some.inj hslot)
        exact hget
    · intro hget
      have hlt := (List.getElem?_eq_some_iff.1 hget).1
      refine ⟨i, mem_range.2 hlt, ?_⟩
      rw [show (PktRun.start pool).pool[i]? = pool[i]? from rfl] at hget
      rw [hget]
      rfl

variable {s : PktRun}

theorem PktRun.Ok.allocate (hs : s.Ok) {i : ℕ} (h : allocatePktId s.pool o = some (i, pool)) :
    PktRun.Ok ⟨pool, (i, o) :: s.inUse, i :: s.handed⟩ := by
  obtain ⟨_, _, hlt, hfree, rfl⟩ := allocatePktId_some h
  refine ⟨by rw [length_set, hs.len], ?_, ?_⟩
  · rw [map_cons, nodup_cons]
    refine ⟨?_, hs.nodup⟩
    intro hmem
    obtain ⟨⟨j, o'⟩, hj, rfl⟩ := mem_map.1 hmem
    exact hfree o' ((hs.mem j o').1 hj)
  · intro j o'
    rw [mem_cons, hs.mem]
    by_cases hj : j = i
    · subst hj
      rw [getElem?_set_self hlt]
      simp only [Prod.mk.injEq, true_and, some.injEq, PktIdSlot.mk.injEq]
      constructor
      · rintro (rfl | h')
        · rfl
        · exact absurd h' (hfree o')
      · intro heq
        exact .inl heq.symm
    · rw [getElem?_set_ne (Ne.symm hj)]
      simp [hj]

theorem PktRun.Ok.release (hs : s.Ok) {id : ℤ} (h : releasePktId s.pool id o = some pool)
    (hown : (s.pool.getD id.toNat {}).ownerId = o) :
    PktRun.Ok { s with pool, inUse := s.inUse.filter fun k => k ≠ (id.toNat, o) } := by
  obtain ⟨owner, hget, howner, _, rfl⟩ := releasePktId_some hs.len h
  have hlt := (List.getElem?_eq_some_iff.1 hget).1
  rw [howner] at hown
  subst hown
  refine ⟨by rw [length_set, hs.len], hs.nodup.sublist (filter_sublist.map _), ?_⟩
  intro j o'
  rw [mem_filter, hs.mem]
  by_cases hj : j = id.toNat
  · subst hj
    rw [getElem?_set_self hlt, hget]
    constructor
    · rintro ⟨heq, hne⟩
      rw [← (PktIdSlot.mk.inj (some.inj heq)).2] at hne
      exact absurd hne (by simp)
    · intro heq
      exact absurd (PktIdSlot.mk.inj (some.inj heq)).1 (by decide)
  · rw [getElem?_set_ne (Ne.symm hj)]
    simp [hj]

theorem PktRun.step_cases (s : PktRun) (c : PktCall) : s.step c = s ∨
    (∃ o i pool, c = .allocate o ∧ allocatePktId s.pool o = some (i, pool) ∧
      s.step c = ⟨pool, (i, o) :: s.inUse, i :: s.handed⟩) ∨
    ∃ id o pool, c = .release id o ∧ releasePktId s.pool id o = some pool ∧
      s.step c = { s with pool, inUse := s.inUse.filter fun k => k ≠ (id.toNat, o) } := by
  cases c with
  | allocate o =>
    cases h : allocatePktId s.pool o with
    | none => exact .inl (by simp only [step, h])
    | some r => exact .inr (.inl ⟨o, r.1, r.2, rfl, h, by simp only [step, h]⟩)
  | release id o =>
    cases h : releasePktId s.pool id o with
    | none => exact .inl (by simp only [step, h])
    | some pool => exact .inr (.inr ⟨id, o, pool, rfl, h, by simp only [step, h]⟩)

/-- A call that steals nothing keeps the ids apart. -/
theorem PktRun.Ok.step (hs : s.Ok) {c : PktCall} (hc : ¬s.Steals c) : (s.step c).Ok := by
  rcases s.step_cases c with h | ⟨o, i, pool, rfl, hcall, h⟩ | ⟨id, o, pool, rfl, hcall, h⟩
  · rwa [h]
  · rw [h]
    exact hs.allocate hcall
  · rw [h]
    refine hs.release hcall ?_
    by_contra hne
    exact hc ⟨by rw [hcall]; rfl, hne⟩

theorem PktRun.step_len (hlen : s.pool.length = kMaxPktId) (c : PktCall) :
    (s.step c).pool.length = kMaxPktId := by
  rcases s.step_cases c with h | ⟨o, i, pool, rfl, hcall, h⟩ | ⟨id, o, pool, rfl, hcall, h⟩
  · rwa [h]
  · obtain ⟨_, _, _, _, rfl⟩ := allocatePktId_some hcall
    rw [h, length_set, hlen]
  · obtain ⟨_, _, _, _, rfl⟩ := releasePktId_some hlen hcall
    rw [h, length_set, hlen]

theorem PktRun.run_rule {I : PktRun → Prop} (hstep : ∀ s c, I s → I (s.step c)) :
    ∀ (cs : List PktCall) (s : PktRun),
    I s → I (s.run cs) := by
  intro cs
  induction cs with
  | nil => exact fun s h => h
  | cons c cs ih => exact fun s h => ih (s.step c) (hstep s c h)

theorem PktRun.steals_neg (hlen : s.pool.length = kMaxPktId) {id : ℤ}
    (h : s.Steals (.release id o)) : o < 0 := by
  obtain ⟨hsome, hne⟩ := h
  obtain ⟨pool, hrel⟩ := isSome_iff_exists.1 hsome
  obtain ⟨owner, _, howner, hchecked, _⟩ := releasePktId_some hlen hrel
  by_contra hpos
  rw [howner] at hne
  exact hne (hchecked (by omega))

variable {pool : List PktIdSlot} {cs : List PktCall}

/-- The checked releases steal nothing, so it is enough that the unchecked ones do not. -/
theorem no_theft (hlen : pool.length = kMaxPktId) (hown : OwnWildcards pool cs) :
    ∀ pre c, pre ++ [c] <+: cs → ¬((PktRun.start pool).run pre).Steals c := by
  intro pre c hpre hsteal
  cases c with
  | allocate o => exact hsteal
  | release id o =>
    have hlen' := PktRun.run_rule (I := fun s => s.pool.length = kMaxPktId)
      (fun s c h => PktRun.step_len h c) pre
      (PktRun.start pool) hlen
    exact hown pre id o hpre (PktRun.steals_neg hlen' hsteal) hsteal

/-- A rule for runs without theft: it may use that no call steals. -/
theorem PktRun.run_rule_own {I : PktRun → Prop}
    (hown : ∀ pre c, pre ++ [c] <+: cs → ¬((PktRun.start pool).run pre).Steals c)
    (hstart : I (PktRun.start pool)) (hstep : ∀ s, ∀ c ∈ cs, ¬s.Steals c → I s → I (s.step c)) :
    I ((PktRun.start pool).run cs) := by
  induction cs using List.reverseRecOn with
  | nil => exact hstart
  | append_singleton cs c ih =>
    have hs := ih (fun pre c' hpre => hown pre c' (hpre.trans (prefix_append cs [c])))
      (fun s c' hc' => hstep s c' (mem_append_left _ hc'))
    rw [PktRun.run, foldl_append]
    exact hstep _ c (mem_append_right _ mem_cons_self) (hown cs c (prefix_refl _)) hs

theorem PktRun.run_ok (hlen : pool.length = kMaxPktId)
    (hown : ∀ pre c, pre ++ [c] <+: cs → ¬((PktRun.start pool).run pre).Steals c) :
    ((PktRun.start pool).run cs).Ok :=
  PktRun.run_rule_own hown (PktRun.start_ok hlen) fun _ _ _ hc hs => hs.step hc

theorem handed_range (cs : List PktCall) :
    ∀ i ∈ ((PktRun.start pool).run cs).handed, 1 ≤ i ∧ i < kMaxPktId := by
  refine PktRun.run_rule (I := fun s => ∀ i ∈ s.handed, 1 ≤ i ∧ i < kMaxPktId) ?_ cs _
    (fun i hi => (by cases hi))
  intro s c hs i hi
  rcases s.step_cases c with h | ⟨o, j, pool', rfl, hcall, h⟩ | ⟨id, o, pool', rfl, hcall, h⟩
  · rw [h] at hi
    exact hs i hi
  · rw [h] at hi
    obtain ⟨hlow, hhigh, _⟩ := allocatePktId_some hcall
    rcases mem_cons.1 hi with rfl | hi
    · exact ⟨hlow, hhigh⟩
    · exact hs i hi
  · rw [h] at hi
    exact hs i hi

end InUse

/-! ### The ids of the table -/

section Table

variable {pool pool' : List PktIdSlot}

/-- The control plane holds the ids of the table. -/
def HoldsTable (pool : List PktIdSlot) : Prop :=
  ∀ i ∈ reservedPktIds, pool[i]? = some ⟨true, kControlPlaneOwner⟩

theorem reservePktIds_fold : ∀ (is : List ℕ) (pool pool' : List PktIdSlot), is.foldlM (fun pool i =>
    if i ∈ reservedPktIds then
      if pool[i]?.any fun slot => slot.used && decide (slot.ownerId ≠ kControlPlaneOwner) then none
      else some (pool.set i ⟨true, kControlPlaneOwner⟩)
    else some pool) pool = some pool' → pool'.length = pool.length ∧
      ∀ i, (i ∈ is ∧ i ∈ reservedPktIds ∧ i < pool.length) ∨ pool[i]? = some ⟨true, kControlPlaneOwner⟩ →
        pool'[i]? = some ⟨true, kControlPlaneOwner⟩ := by
  intro is
  induction is with
  | nil =>
    intro pool pool' h
    obtain rfl := some.inj h
    refine ⟨rfl, ?_⟩
    rintro i (⟨hi, _⟩ | hi)
    · cases hi
    · exact hi
  | cons a is ih =>
    intro pool pool' h
    rw [foldlM_cons] at h
    obtain ⟨p, hp, hrest⟩ := bind_eq_some_iff.1 h
    obtain ⟨hlen, hres⟩ := ih p pool' hrest
    by_cases ha : a ∈ reservedPktIds
    · rw [if_pos ha] at hp
      by_cases hbusy : pool[a]?.any fun slot => slot.used && decide (slot.ownerId ≠ kControlPlaneOwner)
      · rw [if_pos hbusy] at hp
        cases hp
      · rw [if_neg hbusy] at hp
        obtain rfl := some.inj hp
        rw [length_set] at hlen hres
        refine ⟨hlen, fun i hi => hres i ?_⟩
        by_cases hia : i = a
        · subst hia
          right
          have hlt : i < pool.length := by
            rcases hi with ⟨_, _, hlt⟩ | hi
            · exact hlt
            · exact (List.getElem?_eq_some_iff.1 hi).1
          exact getElem?_set_self hlt
        · rw [getElem?_set_ne (Ne.symm hia)]
          rcases hi with ⟨hi, hr, hlt⟩ | hi
          · exact .inl ⟨(mem_cons.1 hi).resolve_left hia, hr, hlt⟩
          · exact .inr hi
    · rw [if_neg ha] at hp
      obtain rfl := some.inj hp
      refine ⟨hlen, fun i hi => hres i ?_⟩
      rcases hi with ⟨hi, hr, hlt⟩ | hi
      · rcases mem_cons.1 hi with rfl | hi
        · exact absurd hr ha
        · exact .inl ⟨hi, hr, hlt⟩
      · exact .inr hi

theorem reservePktIds_holds (hlen : pool.length = kMaxPktId) (h : Manager.reservePktIds pool = some pool') :
    pool'.length = kMaxPktId ∧ HoldsTable pool' := by
  obtain ⟨hlen', hres⟩ := reservePktIds_fold (range kMaxPktId) pool pool' h
  refine ⟨hlen'.trans hlen, fun i hi => hres i (.inl ⟨?_, hi, ?_⟩)⟩
  · have hlt : ∀ i ∈ reservedPktIds, i < kMaxPktId := by decide
    exact mem_range.2 (hlt i hi)
  · have hlt : ∀ i ∈ reservedPktIds, i < kMaxPktId := by decide
    rw [hlen]
    exact hlt i hi

theorem reserveChannels_pool {a b : ℕ} (h : m.reserveChannels a b = some m') :
    m'.pktIdPool = m.pktIdPool := by
  obtain ⟨_, _, h⟩ := bind_eq_some_iff.1 h
  obtain ⟨_, _, h⟩ := bind_eq_some_iff.1 h
  obtain ⟨_, _, rfl⟩ := map_eq_some_iff.1 h
  rfl

theorem reservePorts_pool {l : List (BankId × ℕ)} (h : m.reservePorts l = some m') :
    m'.pktIdPool = m.pktIdPool := by
  obtain ⟨_, _, rfl⟩ := map_eq_some_iff.1 h
  rfl

/-- Only the first step of the reservation touches the pool. -/
theorem reserveControlPlaneResources_pool (hfresh : m.controlPlaneReserved = false)
    (h : m.reserveControlPlaneResources = some m') : Manager.reservePktIds m.pktIdPool =
      some m'.pktIdPool := by
  unfold Manager.reserveControlPlaneResources at h
  rw [hfresh, if_neg Bool.false_ne_true] at h
  obtain ⟨pool, hpool, h⟩ := bind_eq_some_iff.1 h
  obtain ⟨m₁, h₁, h⟩ := bind_eq_some_iff.1 h
  obtain ⟨m₂, h₂, h⟩ := bind_eq_some_iff.1 h
  obtain ⟨m₃, h₃, h⟩ := bind_eq_some_iff.1 h
  obtain ⟨m₄, h₄, h⟩ := bind_eq_some_iff.1 h
  obtain rfl := some.inj h
  have e₁ : m₁.pktIdPool = pool := by
    unfold Manager.reserveSpineChannels at h₁
    split at h₁
    · exact reserveChannels_pool h₁
    · rw [← some.inj h₁]
  have e₄ : m₄.pktIdPool = m₃.pktIdPool := by
    unfold Manager.reserveShimRowControl at h₄
    split at h₄
    · obtain ⟨m₅, h₅, h₆⟩ := bind_eq_some_iff.1 h₄
      rw [reservePorts_pool h₆, reserveChannels_pool h₅]
    · rw [← some.inj h₄]
  show _ = some m₄.pktIdPool
  rw [e₄, reservePorts_pool h₃, reservePorts_pool h₂, e₁, hpool]

/-- A data call that steals nothing leaves the table to the control plane, and hands out none of it. -/
theorem holdsTable_step {s : PktRun} {c : PktCall} (hdata : c.IsData) (hown : ¬s.Steals c)
    (hs : s.pool.length = kMaxPktId ∧ HoldsTable s.pool ∧ ∀ i ∈ s.handed, i ∉ reservedPktIds) :
    (s.step c).pool.length = kMaxPktId ∧ HoldsTable (s.step c).pool ∧
    ∀ i ∈ (s.step c).handed, i ∉ reservedPktIds := by
  obtain ⟨hlen, htable, hhanded⟩ := hs
  refine ⟨PktRun.step_len hlen c, ?_⟩
  rcases s.step_cases c with h | ⟨o, j, pool', rfl, hcall, h⟩ | ⟨id, o, pool', rfl, hcall, h⟩
  · rw [h]
    exact ⟨htable, hhanded⟩
  · obtain ⟨_, _, hlt, hfree, rfl⟩ := allocatePktId_some hcall
    have hj : j ∉ reservedPktIds := fun hj => hfree _ (htable j hj)
    rw [h]
    refine ⟨fun i hi => ?_, fun i hi => ?_⟩
    · have hne : j ≠ i := fun heq => hj (heq ▸ hi)
      show (s.pool.set j _)[i]? = _
      rw [getElem?_set_ne hne, htable i hi]
    · rcases mem_cons.1 hi with rfl | hi
      · exact hj
      · exact hhanded i hi
  · obtain ⟨owner, hget, howner, _, rfl⟩ := releasePktId_some hlen hcall
    rw [h]
    refine ⟨fun i hi => ?_, hhanded⟩
    have hne : id.toNat ≠ i := by
      rintro rfl
      -- the id is the control plane's, so the caller steals it or is the control plane
      rw [htable _ hi] at hget
      have hcp : owner = kControlPlaneOwner := (PktIdSlot.mk.inj (some.inj hget)).2.symm
      refine hown ⟨by rw [hcall]; rfl, ?_⟩
      rw [howner, hcp]
      exact Ne.symm hdata
    show (s.pool.set id.toNat _)[i]? = _
    rw [getElem?_set_ne hne, htable i hi]

end Table

/-! ### Every id is matched -/

def twoRows : List CtrlRowChain := [⟨1, 0, 0⟩, ⟨2, 0, 0⟩]

/-- The slot that lets row classes climb the spine, and the slot for broadcasts. -/
def climbSlot : AcrOp := slotOp 0 1 .south ACR_SLOT_TRANSIT_N ACR_ID_TRANSIT ACR_MASK_CLASS
      ACR_MSEL_TRANSIT_N ACR_ARB_CTRL

def bcastSlot : AcrOp := slotOp 0 1 .south ACR_SLOT_BCAST ACR_ID_BCAST ACR_MASK_BCAST ACR_MSEL_BCAST
      ACR_ARB_CTRL

theorem armed_twoRows {op : AcrOp} (hslot : op.kind = .slot)
    (h : ((planRows 0 0 twoRows).toOption.any fun ops => decide (op ∈ ops)) = true) : Armed op := by
  refine ⟨hslot, .inl ⟨0, 0, twoRows, ?_⟩⟩
  cases hops : planRows 0 0 twoRows with
  | error e =>
    rw [hops] at h
    cases h
  | ok ops =>
    rw [hops] at h
    exact ⟨ops, rfl, of_decide_eq_true h⟩

/-- Already the forward slots of the row planner take every id: half of them climb, half are broadcasts. -/
theorem armed_matches {id : ℕ} (hid : id < kMaxPktId) :
    ∃ op, Armed op ∧ op.isRet = 0 ∧ AcrOp.Matches op id := by
  have hlow : ∀ id < 16, Slot.Takes ⟨ACR_ID_TRANSIT, ACR_MASK_CLASS, ACR_MSEL_TRANSIT_N,
      ACR_ARB_CTRL⟩ id := by
    unfold Slot.Takes
    decide
  have hhigh : ∀ id < 16, Slot.Takes ⟨ACR_ID_BCAST, ACR_MASK_BCAST, ACR_MSEL_BCAST, ACR_ARB_CTRL⟩
      (id + 16) := by
    unfold Slot.Takes
    decide
  unfold kMaxPktId at hid
  by_cases hlt : id < 16
  · exact ⟨climbSlot, armed_twoRows rfl (by decide +kernel), rfl, hlow id hlt⟩
  · refine ⟨bcastSlot, armed_twoRows rfl (by decide +kernel), rfl, ?_⟩
    have hat := hhigh (id - 16) (by omega)
    rwa [Nat.sub_add_cancel (by omega)] at hat

/-! ### When the ids are safe -/

section Safe

variable {m m' : Manager} {cs : List PktCall}

/-- **The ids are safe exactly when none is handed out and the unchecked releases are the owner's.**
If the unchecked releases are the owner's, ids have one user each, and data flows never get an id of
the table. -/
theorem pktIds_safe_iff (hfresh : m.controlPlaneReserved = false) (hlen : m.pktIdPool.length = kMaxPktId)
    (hres : m.reserveControlPlaneResources = some m') :
    (PktIdsSafe m'.pktIdPool cs ↔ ((PktRun.start m'.pktIdPool).run cs).handed = [] ∧
      OwnWildcards m'.pktIdPool cs) ∧
      (OwnWildcards m'.pktIdPool cs →
        (∀ pre, pre <+: cs → (((PktRun.start m'.pktIdPool).run pre).inUse.map Prod.fst).Nodup) ∧
          ((∀ c ∈ cs, c.IsData) → ∀ id ∈ ((PktRun.start m'.pktIdPool).run cs).handed,
            id ∉ reservedPktIds)) := by
  obtain ⟨hlen', htable⟩ := reservePktIds_holds hlen (reserveControlPlaneResources_pool hfresh hres)
  have hdistinct : OwnWildcards m'.pktIdPool cs → ∀ pre, pre <+: cs →
      (((PktRun.start m'.pktIdPool).run pre).inUse.map Prod.fst).Nodup := by
    intro hown pre hpre
    have hno := no_theft hlen' hown
    exact (PktRun.run_ok hlen' fun p c hp => hno p c (hp.trans hpre)).nodup
  refine ⟨⟨fun hsafe => ⟨?_, ?_⟩, fun ⟨hnone, hown⟩ => ⟨?_, hdistinct hown, no_theft hlen' hown⟩⟩, fun hown =>
    ⟨hdistinct hown, fun hdata => ?_⟩⟩
  · apply eq_nil_iff_forall_not_mem.2
    intro id hid
    obtain ⟨op, harmed, _, hmatch⟩ := armed_matches (handed_range cs id hid).2
    exact hsafe.unmatched id hid op harmed hmatch
  · intro pre id o hpre _
    exact hsafe.releases pre _ hpre
  · intro id hid
    rw [hnone] at hid
    cases hid
  · exact (PktRun.run_rule_own (I := fun s => s.pool.length = kMaxPktId ∧ HoldsTable s.pool ∧
      ∀ i ∈ s.handed, i ∉ reservedPktIds) (no_theft hlen' hown) ⟨hlen', htable, fun i hi => (by cases hi)⟩
      fun s c hc hsteal hs => holdsTable_step (hdata c hc) hsteal hs).2.2

end Safe

/-- The pool with the table reserved and all other ids free. -/
def tablePool : List PktIdSlot :=
  (range kMaxPktId).map fun i => if i ∈ reservedPktIds then ⟨true, kControlPlaneOwner⟩ else {}

theorem fiveRows_reserved :
    ∃ m', fiveRows.reserveControlPlaneResources = some m' ∧ m'.pktIdPool = tablePool := by
  have hsome : fiveRows.reserveControlPlaneResources.isSome = true := by decide +kernel
  obtain ⟨m', hm⟩ := isSome_iff_exists.1 hsome
  refine ⟨m', hm, ?_⟩
  have hpool : Manager.reservePktIds fiveRows.pktIdPool = some tablePool := by decide +kernel
  exact some.inj ((reserveControlPlaneResources_pool rfl hm).symm.trans hpool)

/-- A flow that releases an id it does not hold gets nothing, and everything stays safe. -/
theorem pktIds_safe_refused : ∃ m', fiveRows.reserveControlPlaneResources = some m' ∧
    PktIdsSafe m'.pktIdPool [.release 3 5] := by
  obtain ⟨m', hm, hpool⟩ := fiveRows_reserved
  refine ⟨m', hm, (@pktIds_safe_iff fiveRows m' [.release 3 5] rfl rfl hm).1.2 ⟨?_, ?_⟩⟩
  · rw [hpool]
    decide
  · intro pre id o hpre hneg
    obtain ⟨rest, hrest⟩ := hpre
    cases pre with
    | nil =>
      obtain ⟨rfl, rfl⟩ := PktCall.release.inj (cons.inj hrest).1
      exact absurd hneg (by decide)
    | cons c pre =>
      have hnil := (cons.inj hrest).2
      simp at hnil

/-- Four ids for data flows: the last is 7, which the shim row's fourth tile consumes as its own.
And an id of the table is handed out after a release without an owner. -/
theorem not_pktIds_safe : ∃ m', fiveRows.reserveControlPlaneResources = some m' ∧
    ((PktRun.start m'.pktIdPool).run (replicate 4 (.allocate 9))).handed = [7, 6, 5, 4] ∧
    ((planShimRow 0 3).toOption.any fun ops => ops.any fun op => op.kind = .slot ∧ op.pktId = 7 ∧
      op.mask = 0x1F) = true ∧
    ¬PktIdsSafe m'.pktIdPool (replicate 4 (.allocate 9)) ∧
    ((PktRun.start m'.pktIdPool).run [.release 1 (-1), .allocate 9]).handed = [1] ∧
    ¬PktIdsSafe m'.pktIdPool [.release 1 (-1), .allocate 9] := by
  obtain ⟨m', hm, hpool⟩ := fiveRows_reserved
  have hhanded : ((PktRun.start m'.pktIdPool).run (replicate 4 (.allocate 9))).handed = [7, 6, 5, 4] := by
    rw [hpool]
    decide
  refine ⟨m', hm, hhanded, by decide +kernel, ?_, by rw [hpool]; decide, ?_⟩
  · intro hsafe
    obtain ⟨op, harmed, _, hmatch⟩ := @armed_matches 7 (by decide)
    exact hsafe.unmatched 7 (by rw [hhanded]; decide) op harmed hmatch
  · intro hsafe
    refine hsafe.releases [] (.release 1 (-1)) ⟨[.allocate 9], rfl⟩ ?_
    rw [hpool]
    exact ⟨by decide, by decide⟩

end AieHlc.Hw
