import Mathlib
import AieHlc.Lower.Ports

/-!
# When host and kernel agree on locks and buffers

* `analyzePorts_lookup`: the kernel's window of a tensor, by its position in its direction.
* `ports_agree_iff`: the numbers are the same exactly if the inputs are the first
  arguments, the outputs are met in argument order, and every flow of an output is
  lowered after the last input has been met.
-/

namespace AieHlc.Lower

open List

variable {t i j k : ℕ} {params : List KernelPort} {b b' : Bool}

/-! ## The kernel's windows in closed form -/

namespace Signature

variable (sig : Signature)

theorem port_inj {u : ℕ} : sig.port t = sig.port u ↔ t = u := by
  constructor
  · intro h
    exact Int.ofNat.inj (congrArg KernelPort.funcArgIndex h)
  · rintro rfl
    rfl

theorem lt_length (h : sig.isInput t = true) : t < sig.length := by
  by_contra hge
  have hnone : sig.isInput t = false := by
    unfold isInput
    rw [getD_eq_getElem?_getD, getElem?_eq_none (not_lt.1 hge), Option.getD_none]
  rw [hnone] at h
  cases h

theorem mem_inputs : t ∈ sig.inputs ↔ sig.isInput t = true := by
  unfold inputs
  rw [mem_filter, mem_range]
  exact ⟨And.right, fun h => ⟨sig.lt_length h, h⟩⟩

theorem mem_outputs : t ∈ sig.outputs ↔ t < sig.length ∧ sig.isInput t = false := by
  unfold outputs
  rw [mem_filter, mem_range, Bool.not_eq_true']

theorem sortPorts_filter (h : params ~ (range sig.length).map sig.port) (p : KernelPort → Bool) :
    sortPorts (params.filter p) = ((range sig.length).filter fun t => p (sig.port t)).map sig.port := by
  have hperm : sortPorts (params.filter p) ~ ((range sig.length).filter fun t => p (sig.port t)).map
      sig.port := by
    refine (perm_insertionSort _ _).trans ((h.filter p).trans ?_)
    rw [filter_map]
    rfl
  refine @Perm.eq_of_pairwise _ PortLe _ _ ?_ (pairwise_insertionSort PortLe _) ?_ hperm
  · -- a port is determined by its argument
    intro a b ha hb hab hba
    obtain ⟨t, -, rfl⟩ := mem_map.1 (hperm.mem_iff.1 ha)
    obtain ⟨u, -, rfl⟩ := mem_map.1 hb
    exact sig.port_inj.2 (Int.ofNat.inj (Int.le_antisymm hab hba))
  · refine pairwise_map.2 ((pairwise_lt_range.sublist filter_sublist).imp ?_)
    intro t u htu
    exact Int.ofNat_le.2 htu.le

theorem lookup_assignWindows (b : Bool) (t : ℕ) (ts : List ℕ) (count next : ℕ) :
    (assignWindows b count next (ts.map sig.port)).lookup (sig.port t) =
      if t ∈ ts then some (portWindow b (count + ts.idxOf t) (next + 2 * ts.idxOf t)) else none := by
  induction ts generalizing count next with
  | nil => rfl
  | cons u ts ih =>
    rw [map_cons, assignWindows, lookup_cons, ih]
    by_cases h : t = u
    · subst h
      rw [beq_self_eq_true, idxOf_cons_self, if_pos mem_cons_self]
      rfl
    · have hne : sig.port t ≠ sig.port u := fun heq => h (sig.port_inj.1 heq)
      rw [beq_false_of_ne hne, idxOf_cons_ne _ (Ne.symm h)]
      have hmem : t ∈ u :: ts ↔ t ∈ ts := by rw [mem_cons]; exact ⟨fun h' => h'.resolve_left h, Or.inr⟩
      by_cases ht : t ∈ ts
      · have hcount : count + 1 + ts.idxOf t = count + (ts.idxOf t + 1) := by omega
        have hnext : next + 2 + 2 * ts.idxOf t = next + 2 * (ts.idxOf t + 1) := by omega
        rw [if_pos ht, if_pos (hmem.2 ht), hcount, hnext]
      · rw [if_neg ht, if_neg fun h' => ht (hmem.1 h')]

/-- The kernel's window of a tensor, by its position among the inputs or outputs. -/
def window (t : ℕ) : KernelWindow :=
  if sig.isInput t then portWindow true (sig.inputs.idxOf t) (2 * sig.inputs.idxOf t)
  else portWindow false (sig.outputs.idxOf t) (2 * sig.inputs.length + 2 * sig.outputs.idxOf t)

theorem analyzePorts_lookup (h : params ~ (range sig.length).map sig.port) (ht : t < sig.length) :
    (analyzePorts params).lookup (sig.port t) = some (sig.window t) := by
  have hin : sortPorts (params.filter KernelPort.isInput) = sig.inputs.map sig.port :=
    sig.sortPorts_filter h _
  have hout : sortPorts (params.filter fun p => !p.isInput) = sig.outputs.map sig.port :=
    sig.sortPorts_filter h _
  unfold analyzePorts window
  rw [hin, hout, lookup_append, lookup_assignWindows, lookup_assignWindows, length_map]
  cases hi : sig.isInput t with
  | true => rw [if_pos (sig.mem_inputs.2 hi), zero_add, zero_add]; rfl
  | false =>
    have hni : t ∉ sig.inputs := fun hmem => by rw [sig.mem_inputs.1 hmem] at hi; cases hi
    rw [if_neg hni, if_pos (sig.mem_outputs.2 ⟨ht, hi⟩), zero_add]
    rfl

theorem idxOf_filter_range (p : ℕ → Bool) {n : ℕ} (hlt : t < n) (hp : p t = true) :
    ((range n).filter p).idxOf t = ((range t).filter p).length := by
  obtain ⟨k, rfl⟩ := Nat.exists_eq_add_of_lt hlt
  have hni : t ∉ (range t).filter p := fun hmem => absurd (mem_range.1 (mem_filter.1 hmem).1) (lt_irrefl t)
  rw [add_assoc, range_add, filter_append, idxOf_append_of_notMem hni, range_succ_eq_map, map_cons, add_zero,
    filter_cons_of_pos hp, idxOf_cons_self, add_zero]

end Signature


/-! ## Names -/

theorem bufferPingName_inj : bufferPingName b i = bufferPingName b j ↔ i = j :=
  (String.append_right_inj _).trans Nat.repr_inj

theorem bufferPongName_inj : bufferPongName b i = bufferPongName b j ↔ i = j :=
  (String.append_right_inj _).trans Nat.repr_inj

/-- The names of the two directions differ in their fifth letter. -/
theorem name_dir {s s' : Bool → ℕ → String} (hs : s = bufferPingName ∨ s = bufferPongName)
    (hs' : s' = bufferPingName ∨ s' = bufferPongName) (h : s b i = s' b' j) : b = b' := by
  have hchar := congrArg (fun n : String => n.toList[4]?) h
  rcases hs with rfl | rfl <;> rcases hs' with rfl | rfl <;> cases b <;> cases b' <;>
    simp [bufferPingName, bufferPongName, String.toList_append] at hchar ⊢

/-- The names of the two buffers of one direction differ in the letter after the `p`. -/
theorem ping_ne_pong : bufferPingName b i ≠ bufferPongName b' j := by
  intro h
  obtain rfl := name_dir (Or.inl rfl) (Or.inr rfl) h
  have hchar := congrArg (fun n : String => n.toList[if b then 8 else 9]?) h
  cases b <;> simp [bufferPingName, bufferPongName, String.toList_append] at hchar

/-! ## Agreement -/

section Agreement

variable {sig : Signature}

theorem matches_input {pre : List ℕ} (ht : sig.isInput t = true) :
    Matches (idsAfter sig pre t) (sig.window t) ↔ sig.inputs.idxOf t = t := by
  have hplace : place sig pre t = t := if_pos ht
  have hwin : sig.window t = portWindow true (sig.inputs.idxOf t) (2 * sig.inputs.idxOf t) := if_pos ht
  unfold idsAfter
  rw [hplace, ht, hwin]
  constructor
  · intro h
    exact (bufferPingName_inj.1 h.ping).symm
  · intro h
    rw [h]
    refine ⟨?_, ?_, rfl, rfl⟩
    · simp only [if_true, portWindow]
      omega
    · simp only [if_true, portWindow]
      omega

theorem matches_output {pre : List ℕ} (ht : sig.isInput t = false) :
    Matches (idsAfter sig pre t) (sig.window t) ↔
      (met sig (pre ++ [t])).idxOf t = sig.outputs.idxOf t ∧ top sig pre = sig.inputs.length := by
  have hne : ¬sig.isInput t = true := by rw [ht]; exact Bool.false_ne_true
  have hplace : place sig pre t = (met sig (pre ++ [t])).idxOf t := if_neg hne
  have hwin : sig.window t =
      portWindow false (sig.outputs.idxOf t) (2 * sig.inputs.length + 2 * sig.outputs.idxOf t) := if_neg hne
  unfold idsAfter
  rw [hplace, ht, hwin]
  constructor
  · intro h
    have hidx := bufferPingName_inj.1 h.ping
    have hlock := h.acquire
    simp only [Bool.false_eq_true, if_false, portWindow] at hlock
    refine ⟨hidx, ?_⟩
    omega
  · rintro ⟨hidx, htop⟩
    rw [hidx, htop]
    refine ⟨?_, ?_, rfl, rfl⟩
    · simp only [Bool.false_eq_true, if_false, portWindow]
      omega
    · simp only [Bool.false_eq_true, if_false, portWindow]
      omega

/-- Where the numberings are the same. -/
structure Numbered (l : Lowering sig) : Prop where
  /-- no output comes before an input -/
  inputsFirst : ∀ i j, i < j → sig.isInput j = true → sig.isInput i = true
  /-- when a flow of an output is lowered, the last input has been met -/
  inputsMet : ∀ (k t : ℕ), l.order[k]? = some t → sig.isInput t = false → ∀ j, sig.isInput j = true →
    (∀ i, sig.isInput i = true → i ≤ j) → j ∈ l.order.take k
  /-- the outputs are met in argument order -/
  outputsInOrder : met sig l.order = sig.outputs

/-- Every input is at its own place exactly if no output comes before one. -/
theorem inputs_idxOf_iff :
    (∀ t, sig.isInput t = true → sig.inputs.idxOf t = t) ↔
      ∀ i j, i < j → sig.isInput j = true → sig.isInput i = true := by
  have hidx : ∀ t, sig.isInput t = true → sig.inputs.idxOf t = ((range t).filter sig.isInput).length := by
    intro t ht
    exact Signature.idxOf_filter_range sig.isInput (sig.lt_length ht) ht
  constructor
  · intro h i j hij hj
    have hall := h j hj
    rw [hidx j hj] at hall
    have hlen : ((range j).filter sig.isInput).length = (range j).length := by rw [hall, length_range]
    exact length_filter_eq_length_iff.1 hlen i (mem_range.2 hij)
  · intro h t ht
    rw [hidx t ht]
    have hall : ∀ i ∈ range t, sig.isInput i = true := fun i hi => h i t (mem_range.1 hi) ht
    rw [length_filter_eq_length_iff.2 hall, length_range]

theorem isInput_iff_lt (h : ∀ i j, i < j → sig.isInput j = true → sig.isInput i = true) (t : ℕ) :
    sig.isInput t = true ↔ t < sig.inputs.length := by
  constructor
  · intro ht
    have hidx := inputs_idxOf_iff.2 h t ht
    rw [← hidx]
    exact idxOf_lt_length_of_mem (sig.mem_inputs.2 ht)
  · intro hlt
    by_contra hout
    -- otherwise all inputs are below `t`, and there are too few of them
    have hsub : sig.inputs ⊆ range t := by
      intro j hj
      have hin := sig.mem_inputs.1 hj
      rw [mem_range]
      by_contra hge
      rcases Nat.lt_or_eq_of_le (not_lt.1 hge) with hlt' | heq
      · exact hout (h t j hlt' hin)
      · exact hout (heq ▸ hin)
    have hnd : sig.inputs.Nodup := nodup_range.filter _
    have hle := (hnd.subperm hsub).length_le
    rw [length_range] at hle
    omega

/-- The host counts all inputs once it has met the last one. -/
theorem top_eq_iff (h : ∀ i j, i < j → sig.isInput j = true → sig.isInput i = true) (pre : List ℕ) :
    top sig pre = sig.inputs.length ↔
      ∀ j, sig.isInput j = true → (∀ i, sig.isInput i = true → i ≤ j) → j ∈ pre := by
  have hlt := isInput_iff_lt h
  constructor
  · intro htop j hj hlast
    by_contra hnot
    have hle : top sig pre ≤ j := by
      rw [top_le_iff]
      intro t ht hin
      refine Nat.lt_of_le_of_ne (hlast t hin) fun heq => hnot ?_
      rw [← heq]
      exact ht
    have hjlt := (hlt j).1 hj
    omega
  · intro hmet
    have hle : top sig pre ≤ sig.inputs.length := (top_le_iff sig pre _).2 fun t _ hin => (hlt t).1 hin
    rcases Nat.eq_zero_or_pos sig.inputs.length with h0 | hpos
    · omega
    · -- the last input is the one before the first output
      have hin : sig.isInput (sig.inputs.length - 1) = true := (hlt _).2 (by omega)
      have hmem := hmet _ hin fun i hi => Nat.le_sub_one_of_lt ((hlt i).1 hi)
      have hge := (top_le_iff sig pre _).1 le_rfl _ hmem hin
      omega

theorem take_append_getElem? {l : List ℕ} (h : l[k]? = some t) : l = l.take k ++ [t] ++ l.drop (k + 1) := by
  obtain ⟨hlt, rfl⟩ := List.getElem?_eq_some_iff.1 h
  rw [take_append_getElem, take_append_drop]

theorem idxOf_met {order : List ℕ} (hk : order[k]? = some t) (ht : sig.isInput t = false) :
    (met sig (order.take k ++ [t])).idxOf t = (met sig order).idxOf t := by
  obtain ⟨rest, hrest⟩ := met_prefix sig (order.take k ++ [t]) (order.drop (k + 1))
  have hmem : t ∈ met sig (order.take k ++ [t]) :=
    (mem_met sig _ t).2 ⟨mem_append.2 (Or.inr mem_cons_self), ht⟩
  rw [← take_append_getElem? hk] at hrest
  rw [← hrest, idxOf_append_of_mem hmem]

theorem eq_of_idxOf {a b : List ℕ} (ha : a.Nodup) (hb : b.Nodup) (hmem : ∀ t, t ∈ a ↔ t ∈ b)
    (h : ∀ t ∈ b, a.idxOf t = b.idxOf t) : a = b := by
  have hperm : a ~ b := (perm_ext_iff_of_nodup ha hb).2 hmem
  refine ext_getElem hperm.length_eq ?_
  intro i hi hi'
  have hidx := h a[i] ((hmem _).1 (getElem_mem hi))
  rw [ha.idxOf_getElem] at hidx
  have hget := getElem_idxOf (idxOf_lt_length_of_mem ((hmem _).1 (getElem_mem hi)))
  simp only [← hidx] at hget
  exact hget.symm

theorem hostIds_getElem? (l : Lowering sig) (hk : l.order[k]? = some t) :
    l.hostIds[k]? = some (idsAfter sig (l.order.take k) t) := by
  have hrun := l.inv_nil.run l.order k
  rw [hk] at hrun
  exact hrun

theorem same_iff (l : Lowering sig) (h : params ~ (range sig.length).map sig.port) :
    (∀ (k t : ℕ), l.order[k]? = some t → ∃ ids w, l.hostIds[k]? = some ids ∧
      (analyzePorts params).lookup (sig.port t) = some w ∧ Matches ids w) ↔ Numbered l := by
  have hwin : ∀ (k t : ℕ), l.order[k]? = some t →
      (analyzePorts params).lookup (sig.port t) = some (sig.window t) := fun k t hk =>
    sig.analyzePorts_lookup h ((l.mem_order t).1 (mem_of_getElem? hk))
  constructor
  · intro hsame
    have hmatch : ∀ (k t : ℕ), l.order[k]? = some t → Matches (idsAfter sig (l.order.take k) t)
        (sig.window t) := by
      intro k t hk
      obtain ⟨ids, w, hids, hw, hm⟩ := hsame k t hk
      obtain rfl := Option.some.inj ((hostIds_getElem? l hk).symm.trans hids)
      obtain rfl := Option.some.inj ((hwin k t hk).symm.trans hw)
      exact hm
    have hfirst : ∀ i j, i < j → sig.isInput j = true → sig.isInput i = true := by
      refine inputs_idxOf_iff.1 fun t ht => ?_
      obtain ⟨k, hk⟩ := mem_iff_getElem?.1 ((l.mem_order t).2 (sig.lt_length ht))
      exact (matches_input ht).1 (hmatch k t hk)
    have hout : ∀ (k t : ℕ), l.order[k]? = some t → sig.isInput t = false →
        (met sig (l.order.take k ++ [t])).idxOf t = sig.outputs.idxOf t ∧
          top sig (l.order.take k) = sig.inputs.length := by
      intro k t hk ht
      exact (matches_output ht).1 (hmatch k t hk)
    refine ⟨hfirst, fun k t hk ht => (top_eq_iff hfirst _).1 (hout k t hk ht).2, ?_⟩
    have hmem : ∀ t, t ∈ met sig l.order ↔ t ∈ sig.outputs := by
      intro t
      rw [mem_met, sig.mem_outputs, l.mem_order]
    refine eq_of_idxOf (nodup_met sig _) (nodup_range.filter _) hmem ?_
    intro t ht
    obtain ⟨hlt, hti⟩ := sig.mem_outputs.1 ht
    obtain ⟨k, hk⟩ := mem_iff_getElem?.1 ((l.mem_order t).2 hlt)
    rw [← idxOf_met hk hti]
    exact (hout k t hk hti).1
  · intro hn k t hk
    refine ⟨_, _, hostIds_getElem? l hk, hwin k t hk, ?_⟩
    cases ht : sig.isInput t with
    | true => exact (matches_input ht).2 (inputs_idxOf_iff.2 hn.inputsFirst t ht)
    | false =>
      refine (matches_output ht).2 ⟨?_, ?_⟩
      · rw [idxOf_met hk ht, hn.outputsInOrder]
      · exact (top_eq_iff hn.inputsFirst _).2 (hn.inputsMet k t hk ht)

/-- Numbers apart: pairs of locks that do not meet, and another direction or index. -/
theorem apart_of {x y : ℕ} (hlock : x + 1 < y ∨ y + 1 < x) (hname : b = b' → i ≠ j) :
    Apart ⟨x, x + 1, bufferPingName b i, bufferPongName b i⟩
      ⟨y, y + 1, bufferPingName b' j, bufferPongName b' j⟩ := by
  constructor
  · intro z hz hz'
    simp only [mem_cons, not_mem_nil, or_false] at hz hz'
    omega
  · intro z hz hz'
    simp only [mem_cons, not_mem_nil, or_false] at hz hz'
    rcases hz with rfl | rfl <;> rcases hz' with h | h
    · obtain rfl := name_dir (Or.inl rfl) (Or.inl rfl) h
      exact hname rfl (bufferPingName_inj.1 h)
    · exact ping_ne_pong h
    · exact ping_ne_pong h.symm
    · obtain rfl := name_dir (Or.inr rfl) (Or.inr rfl) h
      exact hname rfl (bufferPongName_inj.1 h)

theorem Numbered.apart {l : Lowering sig} (h : Numbered l) {k' t' : ℕ} (hk : l.order[k]? = some t)
    (hk' : l.order[k']? = some t') (hne : t ≠ t') :
    Apart (idsAfter sig (l.order.take k) t) (idsAfter sig (l.order.take k') t') := by
  have hlt := isInput_iff_lt h.inputsFirst
  have htop : ∀ {k t : ℕ}, l.order[k]? = some t → sig.isInput t = false →
      top sig (l.order.take k) = sig.inputs.length := fun hk ht =>
    (top_eq_iff h.inputsFirst _).2 (h.inputsMet _ _ hk ht)
  have hplace : ∀ {k t : ℕ}, l.order[k]? = some t → sig.isInput t = false →
      place sig (l.order.take k) t = sig.outputs.idxOf t := by
    intro k t hk ht
    rw [place, if_neg (by rw [ht]; exact Bool.false_ne_true), idxOf_met hk ht, h.outputsInOrder]
  have hplace' : ∀ {k t : ℕ}, sig.isInput t = true → place sig (l.order.take k) t = t := fun ht => if_pos ht
  have hmem : ∀ {k t : ℕ}, l.order[k]? = some t → sig.isInput t = false → t ∈ sig.outputs := fun hk ht =>
    sig.mem_outputs.2 ⟨(l.mem_order _).1 (mem_of_getElem? hk), ht⟩
  unfold idsAfter
  refine apart_of ?_ ?_
  · cases ht : sig.isInput t with
    | true =>
      have h1 := (hlt t).1 ht
      cases ht' : sig.isInput t' with
      | true =>
        rw [hplace' ht, hplace' ht']
        simp only [if_true]
        omega
      | false =>
        rw [hplace' ht, htop hk' ht']
        simp only [if_true, Bool.false_eq_true, if_false]
        omega
    | false =>
      cases ht' : sig.isInput t' with
      | true =>
        have h1 := (hlt t').1 ht'
        rw [hplace' ht', htop hk ht]
        simp only [if_true, Bool.false_eq_true, if_false]
        omega
      | false =>
        have hidx : sig.outputs.idxOf t ≠ sig.outputs.idxOf t' :=
          fun heq => hne (idxOf_inj (hmem hk ht) |>.1 heq)
        rw [hplace hk ht, hplace hk' ht', htop hk ht, htop hk' ht']
        simp only [Bool.false_eq_true, if_false]
        omega
  · intro hdir
    cases ht : sig.isInput t with
    | true =>
      rw [hplace' ht, hplace' (hdir ▸ ht)]
      exact hne
    | false =>
      have ht' : sig.isInput t' = false := hdir ▸ ht
      rw [hplace hk ht, hplace hk' ht']
      exact fun heq => hne (idxOf_inj (hmem hk ht) |>.1 heq)

/-- **Locks and buffers**: host and kernel agree, and no two tensors share any, exactly where the numberings
are the same. -/
theorem ports_agree_iff (l : Lowering sig) {params : List KernelPort}
    (h : params ~ (range sig.length).map sig.port) : PortsAgree l params ↔ Numbered l := by
  constructor
  · intro hagree
    exact (same_iff l h).1 hagree.same
  · intro hn
    refine ⟨(same_iff l h).2 hn, ?_⟩
    intro k k' t t' ids ids' hk hk' hne hids hids'
    obtain rfl := Option.some.inj ((hostIds_getElem? l hk).symm.trans hids)
    obtain rfl := Option.some.inj ((hostIds_getElem? l hk').symm.trans hids')
    exact hn.apart hk hk' hne

end Agreement

/-- A kernel of three tensors, lowered in the given order, with data ids counted from 0. -/
def threeTensors (sig : Signature) (order : List ℕ) (hsig : sig.length = 3) (h : order ~ range 3) :
    Lowering sig where
  order := order
  dataId := fun t => t
  mem_order := by
    intro t
    rw [h.mem_iff, mem_range, hsig]
  dataId_inj := fun _ _ h => Int.ofNat.inj h

/-- Two inputs and an output, the second input lowered first. -/
theorem ports_agree_gemm :
    PortsAgree (threeTensors [true, true, false] [1, 0, 2] rfl (by decide))
      [⟨true, 0⟩, ⟨true, 1⟩, ⟨false, 2⟩] := by
  have hin : ∀ t, Signature.isInput [true, true, false] t = true → t < 2 := by
    intro t ht
    have hlt : t < 3 := Signature.lt_length _ ht
    interval_cases t
    · decide
    · decide
    · cases ht
  refine (ports_agree_iff _ (by decide)).2 ⟨?_, ?_, by decide⟩
  · intro i j hij hj
    have hj2 := hin j hj
    have hi : i = 0 := by omega
    rw [hi]
    rfl
  · intro k t hk ht j hj hlast
    have hj2 := hin j hj
    have hk3 : k < 3 := (List.getElem?_eq_some_iff.1 hk).1
    -- only the third flow is the output's
    interval_cases k
    · obtain rfl := Option.some.inj hk
      cases ht
    · obtain rfl := Option.some.inj hk
      cases ht
    · have hmem : ∀ j < 2, j ∈ [1, 0] := by decide
      exact hmem j hj2

/-- An output before an input in the signature, or lowered before the inputs: the numbers differ. -/
theorem not_ports_agree :
    ¬PortsAgree (threeTensors [true, false, true] [0, 1, 2] rfl (by decide))
      [⟨true, 0⟩, ⟨false, 1⟩, ⟨true, 2⟩] ∧
      ¬PortsAgree (threeTensors [true, true, false] [2, 0, 1] rfl (by decide))
        [⟨true, 0⟩, ⟨true, 1⟩, ⟨false, 2⟩] := by
  constructor
  · intro h
    have hn := (same_iff _ (by decide)).1 h.same
    have hbad := hn.inputsFirst 1 2 (by decide) rfl
    cases hbad
  · intro h
    have hn := (same_iff _ (by decide)).1 h.same
    have hbad := hn.inputsMet 0 2 rfl rfl 1 rfl (by
      intro i hi
      have hlt : i < 3 := Signature.lt_length _ hi
      interval_cases i
      · decide
      · decide
      · cases hi)
    cases hbad

end AieHlc.Lower
