import Mathlib.Data.List.Induction
import Mathlib.Data.List.Nodup
import Mathlib.Data.List.Sort

/-!
# Lock ids and buffer names of the ports

The host pass and the kernel pass number the ports of a kernel independently. The
host numbers inputs by function argument and outputs as it meets them, above the
inputs it has met so far. The kernel sorts its ports by function argument, inputs
first, and numbers them by position.

* `numberFlow`: the host's numbers for one flow, with the counters kept between flows.
* `analyzePorts`: the kernel's windows.
* `Signature`, `Lowering`: a kernel's tensors, and the order in which their flows are lowered.
* `Lowering.Inv`: the counters after some flows; `Inv.step`, `Inv.run`.
* `PortsAgree`: both passes give a tensor the same locks and buffers, and two tensors
  different ones.
-/

namespace AieHlc.Lower

open List

variable {pre : List ℕ} {s : PortCounters}

/-! ## The host -/

/-- What numbering reads of a flow. -/
structure PortFlow where
  isInput : Bool
  dataId : ℤ
  /-- function argument the flow's tensor comes from, or negative -/
  funcArgIdx : ℤ
deriving DecidableEq, Repr

/-- Counters kept from flow to flow. -/
structure PortCounters where
  dataIdToInputIdx : List (ℤ × ℕ) := []
  nextInputIdx : ℕ := 0
  dataIdToOutputIdx : List (ℤ × ℕ) := []
  nextOutputIdx : ℕ := 0
deriving DecidableEq, Repr

/-- Locks and buffers of the core DMA of a flow. -/
structure CoreDmaIds where
  acquireLockId : ℕ
  releaseLockId : ℕ
  pingName : String
  pongName : String
deriving DecidableEq, Repr

def bufferPingName (isInput : Bool) (i : ℕ) : String :=
  (if isInput then "buf_in_ping_" else "buf_out_ping_") ++ toString i

def bufferPongName (isInput : Bool) (i : ℕ) : String :=
  (if isInput then "buf_in_pong_" else "buf_out_pong_") ++ toString i

/-- Index of a flow's port in its direction, and the counters after it. -/
def dirIdx (s : PortCounters) (f : PortFlow) : ℕ × PortCounters :=
  if f.isInput then
    match s.dataIdToInputIdx.lookup f.dataId with
    | some i => (i, s)
    | none =>
      let i := if 0 ≤ f.funcArgIdx then f.funcArgIdx.toNat else s.nextInputIdx
      (i, { s with
        dataIdToInputIdx := (f.dataId, i) :: s.dataIdToInputIdx
        nextInputIdx := max s.nextInputIdx (i + 1) })
  else
    match s.dataIdToOutputIdx.lookup f.dataId with
    | some i => (i, s)
    | none =>
      (s.nextOutputIdx, { s with
        dataIdToOutputIdx := (f.dataId, s.nextOutputIdx) :: s.dataIdToOutputIdx
        nextOutputIdx := s.nextOutputIdx + 1 })

/-- The host's numbers for a flow. -/
def numberFlow (s : PortCounters) (f : PortFlow) : CoreDmaIds × PortCounters :=
  let (i, s') := dirIdx s f
  -- output locks start after those of the inputs met so far
  let lock := if f.isInput then i * 2 else s'.nextInputIdx * 2 + i * 2
  (⟨lock, lock + 1, bufferPingName f.isInput i, bufferPongName f.isInput i⟩, s')

/-- The host's numbers for all flows, in the order they are lowered. -/
def numberFlows : PortCounters → List PortFlow → List CoreDmaIds
  | _, [] => []
  | s, f :: fs => (numberFlow s f).1 :: numberFlows (numberFlow s f).2 fs

/-! ## The kernel -/

/-- A port of the kernel, before it is numbered. -/
structure KernelPort where
  isInput : Bool
  funcArgIndex : ℤ
deriving DecidableEq, Repr

/-- What the kernel pass assigns to a port. -/
structure KernelWindow where
  windowName : String
  bufferPingName : String
  bufferPongName : String
  acquireLockId : ℤ
  releaseLockId : ℤ
  acquireLockHwId : ℤ
  releaseLockHwId : ℤ
  pingBdId : ℕ
  pongBdId : ℕ
deriving DecidableEq, Repr

/-- Kernel intrinsics address the locks of the tile from here on. -/
def lockBase : ℤ := 48

/-- The register index of a lock, or -1 where there is none. -/
def toHardwareLockId (intrinsicLockId : ℤ) : ℤ :=
  let hw := intrinsicLockId - lockBase
  if 0 ≤ hw ∧ hw ≤ 15 then hw else -1

/-- The window of the port at position `count`, with lock and BD counters at `next`. -/
def portWindow (isInput : Bool) (count next : ℕ) : KernelWindow where
  windowName := (if isInput then "window_in_" else "window_out_") ++ toString count
  bufferPingName := Lower.bufferPingName isInput count
  bufferPongName := Lower.bufferPongName isInput count
  acquireLockId := lockBase + next
  releaseLockId := lockBase + (next + 1 : ℕ)
  acquireLockHwId := toHardwareLockId (lockBase + next)
  releaseLockHwId := toHardwareLockId (lockBase + (next + 1 : ℕ))
  pingBdId := next
  pongBdId := next + 1

/-- Windows of a sorted list of ports. Locks and BDs are counted alike, two a port. -/
def assignWindows (isInput : Bool) : ℕ → ℕ → List KernelPort → List (KernelPort × KernelWindow)
  | _, _, [] => []
  | count, next, p :: ps => (p, portWindow isInput count next) :: assignWindows isInput (count + 1)
    (next + 2) ps

def PortLe (a b : KernelPort) : Prop := a.funcArgIndex ≤ b.funcArgIndex

instance : DecidableRel PortLe := fun a b => inferInstanceAs (Decidable (a.funcArgIndex ≤ b.funcArgIndex))

instance : Std.Total PortLe := ⟨fun a b => Int.le_total a.funcArgIndex b.funcArgIndex⟩

instance : IsTrans KernelPort PortLe := ⟨fun _ _ _ => Int.le_trans⟩

def sortPorts (ps : List KernelPort) : List KernelPort := ps.insertionSort PortLe

/-- The kernel's windows: inputs first, each direction by function argument. -/
def analyzePorts (params : List KernelPort) : List (KernelPort × KernelWindow) :=
  let inputs := sortPorts (params.filter KernelPort.isInput)
  let outputs := sortPorts (params.filter fun p => !p.isInput)
  assignWindows true 0 0 inputs ++ assignWindows false 0 (2 * inputs.length) outputs

/-! ## Signatures and lowering orders -/

/-- The tensors of a kernel by function argument: `true` for an input. -/
abbrev Signature := List Bool

namespace Signature

variable (sig : Signature)

def isInput (t : ℕ) : Bool := sig.getD t false

def inputs : List ℕ := (range sig.length).filter sig.isInput

def outputs : List ℕ := (range sig.length).filter fun t => !sig.isInput t

def port (t : ℕ) : KernelPort := ⟨sig.isInput t, t⟩

end Signature

/-- The flows of a kernel's tensors in the order they are lowered. A tensor may have several. -/
structure Lowering (sig : Signature) where
  order : List ℕ
  /-- every tensor has its own data id -/
  dataId : ℕ → ℤ
  mem_order : ∀ t, t ∈ order ↔ t < sig.length
  dataId_inj : Function.Injective dataId

namespace Lowering

variable {sig : Signature} (l : Lowering sig)

def flow (t : ℕ) : PortFlow := ⟨sig.isInput t, l.dataId t, t⟩

def hostIds : List CoreDmaIds := numberFlows {} (l.order.map l.flow)

end Lowering

/-- The host's numbers are the kernel's. -/
structure Matches (ids : CoreDmaIds) (w : KernelWindow) : Prop where
  acquire : (ids.acquireLockId : ℤ) = w.acquireLockId - lockBase
  release : (ids.releaseLockId : ℤ) = w.releaseLockId - lockBase
  ping : ids.pingName = w.bufferPingName
  pong : ids.pongName = w.bufferPongName

/-- Two flows share no lock and no buffer. -/
structure Apart (a b : CoreDmaIds) : Prop where
  locks : Disjoint [a.acquireLockId, a.releaseLockId] [b.acquireLockId, b.releaseLockId]
  names : Disjoint [a.pingName, a.pongName] [b.pingName, b.pongName]

/-- Both passes give every tensor the same locks and buffers, and different tensors different ones. -/
structure PortsAgree {sig : Signature} (l : Lowering sig) (params : List KernelPort) : Prop where
  same : ∀ (k t : ℕ), l.order[k]? = some t → ∃ ids w, l.hostIds[k]? = some ids ∧
    (analyzePorts params).lookup (sig.port t) = some w ∧ Matches ids w
  apart : ∀ (k k' t t' : ℕ) (ids ids' : CoreDmaIds), l.order[k]? = some t → l.order[k']? = some t' → t ≠ t' →
    l.hostIds[k]? = some ids → l.hostIds[k']? = some ids' → Apart ids ids'

/-! ## What the host has met -/

section Met

variable (sig : Signature)

/-- Above the inputs among the tensors met. -/
def top (pre : List ℕ) : ℕ := pre.foldl (fun b t => if sig.isInput t then max b (t + 1) else b) 0

/-- Outputs in the order they are met. -/
def met (pre : List ℕ) : List ℕ :=
  pre.foldl (fun ts t => if sig.isInput t = true ∨ t ∈ ts then ts else ts ++ [t]) []

theorem top_append (pre : List ℕ) (t : ℕ) :
    top sig (pre ++ [t]) = if sig.isInput t then max (top sig pre) (t + 1) else top sig pre := by
  simp [top]

theorem top_le_iff (pre : List ℕ) (b : ℕ) :
    top sig pre ≤ b ↔ ∀ t ∈ pre, sig.isInput t = true → t < b := by
  induction pre using reverseRecOn with
  | nil => simp [top]
  | append_singleton pre u ih =>
    rw [top_append, forall_mem_append, forall_mem_singleton, ← ih]
    by_cases hu : sig.isInput u = true
    · rw [if_pos hu, Nat.max_le]
      exact and_congr_right fun _ => ⟨fun h _ => h, fun h => h hu⟩
    · rw [if_neg hu]
      exact ⟨fun h => ⟨h, fun h' => absurd h' hu⟩, And.left⟩

theorem met_append (pre : List ℕ) (t : ℕ) :
    met sig (pre ++ [t]) = if sig.isInput t = true ∨ t ∈ met sig pre then met sig pre
    else met sig pre ++ [t] := by
  unfold met
  rw [foldl_append]
  rfl

theorem mem_met (pre : List ℕ) (t : ℕ) : t ∈ met sig pre ↔ t ∈ pre ∧ sig.isInput t = false := by
  induction pre using reverseRecOn with
  | nil => simp [met]
  | append_singleton pre u ih =>
    rw [met_append]
    by_cases hu : sig.isInput u = true ∨ u ∈ met sig pre
    · rw [if_pos hu, ih, mem_append, mem_singleton]
      constructor
      · intro h
        exact ⟨Or.inl h.1, h.2⟩
      · rintro ⟨h | rfl, ht⟩
        · exact ⟨h, ht⟩
        · rcases hu with hin | hmet
          · rw [hin] at ht
            cases ht
          · exact ih.1 hmet
    · rw [if_neg hu, mem_append, mem_append, mem_singleton, ih]
      push Not at hu
      constructor
      · rintro (h | rfl)
        · exact ⟨Or.inl h.1, h.2⟩
        · exact ⟨Or.inr rfl, Bool.eq_false_iff.2 hu.1⟩
      · rintro ⟨h | rfl, ht⟩
        · exact Or.inl ⟨h, ht⟩
        · exact Or.inr rfl

theorem nodup_met (pre : List ℕ) : (met sig pre).Nodup := by
  induction pre using reverseRecOn with
  | nil => exact nodup_nil
  | append_singleton pre u ih =>
    rw [met_append]
    split
    · exact ih
    · rename_i hu
      push Not at hu
      exact ih.append (nodup_singleton u) (disjoint_singleton.2 hu.2)

theorem met_prefix (pre suf : List ℕ) : met sig pre <+: met sig (pre ++ suf) := by
  induction suf using reverseRecOn with
  | nil =>
    simp only [append_nil, prefix_rfl]
  | append_singleton suf u ih =>
    rw [← append_assoc, met_append]
    split
    · exact ih
    · exact ih.trans (prefix_append _ _)

end Met

/-- Place of a tensor among the ports the host has met in its direction. -/
def place (sig : Signature) (pre : List ℕ) (t : ℕ) : ℕ :=
  if sig.isInput t then t else (met sig (pre ++ [t])).idxOf t

/-- The host's numbers for a flow of `t` after flows of `pre`. -/
def idsAfter (sig : Signature) (pre : List ℕ) (t : ℕ) : CoreDmaIds :=
  let lock := if sig.isInput t then place sig pre t * 2 else top sig pre * 2 + place sig pre t * 2
  ⟨lock, lock + 1, bufferPingName (sig.isInput t) (place sig pre t), bufferPongName (sig.isInput t)
    (place sig pre t)⟩

namespace Lowering

variable {sig : Signature} (l : Lowering sig)

/-- The counters after flows of `pre`. -/
structure Inv (pre : List ℕ) (s : PortCounters) : Prop where
  inputs : ∀ t, sig.isInput t = true →
    s.dataIdToInputIdx.lookup (l.dataId t) = if t ∈ pre then some t else none
  nextInput : s.nextInputIdx = top sig pre
  outputs : ∀ t, s.dataIdToOutputIdx.lookup (l.dataId t) =
    if t ∈ met sig pre then some ((met sig pre).idxOf t) else none
  nextOutput : s.nextOutputIdx = (met sig pre).length

theorem inv_nil : l.Inv [] {} where
  inputs := fun _ _ => rfl
  nextInput := rfl
  outputs := fun _ => rfl
  nextOutput := rfl

variable {l}

theorem lookup_dataId_cons (t u v : ℕ) (m : List (ℤ × ℕ)) :
    ((l.dataId u, v) :: m).lookup (l.dataId t) = if t = u then some v else m.lookup (l.dataId t) := by
  rw [lookup_cons]
  by_cases h : t = u
  · rw [if_pos h, h, beq_self_eq_true]
  · have hne : l.dataId t ≠ l.dataId u := fun heq => h (l.dataId_inj heq)
    rw [if_neg h, beq_false_of_ne hne]

/-- One flow of an input: it is numbered by its argument, whether it was met before or not. -/
theorem Inv.input (h : l.Inv pre s) {t : ℕ} (ht : sig.isInput t = true) :
    (dirIdx s (l.flow t)).1 = t ∧ l.Inv (pre ++ [t]) (dirIdx s (l.flow t)).2 := by
  have hmet : met sig (pre ++ [t]) = met sig pre := by rw [met_append, if_pos (Or.inl ht)]
  have hlook := h.inputs t ht
  unfold dirIdx
  rw [if_pos (show (l.flow t).isInput = true from ht), show (l.flow t).dataId = l.dataId t from rfl, hlook]
  by_cases hmem : t ∈ pre
  · rw [if_pos hmem]
    refine ⟨rfl, ?_, ?_, ?_, ?_⟩
    · intro u hu
      have hiff : u ∈ pre ++ [t] ↔ u ∈ pre := by
        rw [mem_append, mem_singleton]
        exact ⟨fun h => h.elim id fun h => h ▸ hmem, Or.inl⟩
      rw [h.inputs u hu]
      exact if_congr hiff.symm rfl rfl
    · -- the counter is above every input met
      have hlt : t < top sig pre := (top_le_iff sig pre _).1 le_rfl t hmem ht
      rw [h.nextInput, top_append, if_pos ht]
      exact (max_eq_left hlt).symm
    · rw [hmet]
      exact h.outputs
    · rw [hmet]
      exact h.nextOutput
  · rw [if_neg hmem]
    have harg : (if 0 ≤ (l.flow t).funcArgIdx then (l.flow t).funcArgIdx.toNat else s.nextInputIdx) = t :=
      if_pos (Int.natCast_nonneg t)
    simp only [harg]
    refine ⟨trivial, ?_, ?_, ?_, ?_⟩
    · intro u hu
      rw [lookup_dataId_cons, h.inputs u hu]
      by_cases hut : u = t
      · rw [if_pos hut, if_pos (mem_append.2 (Or.inr (mem_singleton.2 hut))), hut]
      · have hiff : u ∈ pre ++ [t] ↔ u ∈ pre := by
          rw [mem_append, mem_singleton]
          exact ⟨fun h => h.elim id fun h => absurd h hut, Or.inl⟩
        rw [if_neg hut]
        exact if_congr hiff.symm rfl rfl
    · rw [h.nextInput, top_append, if_pos ht]
    · rw [hmet]
      exact h.outputs
    · rw [hmet]
      exact h.nextOutput

/-- One flow of an output: it is numbered by its place among the outputs met. -/
theorem Inv.output (h : l.Inv pre s) {t : ℕ} (ht : sig.isInput t = false) :
    (dirIdx s (l.flow t)).1 = (met sig (pre ++ [t])).idxOf t ∧
    (dirIdx s (l.flow t)).2.nextInputIdx = top sig pre ∧
      l.Inv (pre ++ [t]) (dirIdx s (l.flow t)).2 := by
  have hne : ¬sig.isInput t = true := by rw [ht]; exact Bool.false_ne_true
  have htop : top sig (pre ++ [t]) = top sig pre := by rw [top_append, if_neg hne]
  have hinputs : ∀ u, sig.isInput u = true →
      s.dataIdToInputIdx.lookup (l.dataId u) = if u ∈ pre ++ [t] then some u else none := by
    intro u hu
    have hut : u ≠ t := fun heq => hne (heq ▸ hu)
    rw [h.inputs u hu]
    refine if_congr ?_ rfl rfl
    rw [mem_append, mem_singleton]
    exact ⟨Or.inl, fun h => h.elim id fun h => absurd h hut⟩
  unfold dirIdx
  rw [if_neg (show ¬(l.flow t).isInput = true from hne), show (l.flow t).dataId = l.dataId t
    from rfl, h.outputs t]
  by_cases hmem : t ∈ met sig pre
  · have hmet : met sig (pre ++ [t]) = met sig pre := by rw [met_append, if_pos (Or.inr hmem)]
    rw [if_pos hmem, hmet]
    refine ⟨rfl, h.nextInput, hinputs, ?_, ?_, ?_⟩
    · rw [htop]
      exact h.nextInput
    · rw [hmet]
      exact h.outputs
    · rw [hmet]
      exact h.nextOutput
  · -- a new output goes to the end
    have hmet : met sig (pre ++ [t]) = met sig pre ++ [t] := by
      rw [met_append, if_neg (by rintro (h' | h') <;> contradiction)]
    have hidx : (met sig pre ++ [t]).idxOf t = (met sig pre).length := by
      rw [idxOf_append_of_notMem hmem, idxOf_cons_self, Nat.add_zero]
    rw [if_neg hmem, hmet, hidx]
    refine ⟨h.nextOutput, h.nextInput, hinputs, ?_, ?_, ?_⟩
    · rw [htop]
      exact h.nextInput
    · intro u
      rw [lookup_dataId_cons, h.outputs u, hmet, h.nextOutput]
      by_cases hut : u = t
      · rw [if_pos hut, if_pos (mem_append.2 (Or.inr (mem_singleton.2 hut))), hut, hidx]
      · rw [if_neg hut]
        by_cases hu : u ∈ met sig pre
        · rw [if_pos hu, if_pos (mem_append.2 (Or.inl hu)), idxOf_append_of_mem hu]
        · rw [if_neg hu, if_neg]
          rw [mem_append, mem_singleton]
          rintro (h' | h') <;> contradiction
    · rw [hmet, length_append, length_singleton, h.nextOutput]

/-- **One flow**: its numbers, and the counters after it. -/
theorem Inv.step (h : l.Inv pre s) (t : ℕ) :
    (numberFlow s (l.flow t)).1 = idsAfter sig pre t ∧ l.Inv (pre ++ [t]) (numberFlow s (l.flow t)).2 := by
  unfold numberFlow idsAfter place
  cases ht : sig.isInput t with
  | true =>
    obtain ⟨hidx, hinv⟩ := h.input ht
    have hin : (l.flow t).isInput = true := ht
    refine ⟨?_, hinv⟩
    simp only [hin, hidx, if_true]
  | false =>
    obtain ⟨hidx, htop, hinv⟩ := h.output ht
    have hin : (l.flow t).isInput = false := ht
    refine ⟨?_, hinv⟩
    simp only [hin, hidx, htop, Bool.false_eq_true, if_false]

/-- **All flows**: each is numbered by what was met before it. -/
theorem Inv.run (h : l.Inv pre s) (ts : List ℕ) (k : ℕ) :
    (numberFlows s (ts.map l.flow))[k]? = ts[k]?.map fun t => idsAfter sig (pre ++ ts.take k) t := by
  induction ts generalizing pre s k with
  | nil => simp [numberFlows]
  | cons t ts ih =>
    obtain ⟨hids, hinv⟩ := h.step t
    cases k with
    | zero => simp [numberFlows, hids]
    | succ k =>
      have htail := ih hinv k
      rw [append_assoc, singleton_append] at htail
      simpa [numberFlows] using htail

end Lowering

end AieHlc.Lower
