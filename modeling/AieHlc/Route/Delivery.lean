import AieHlc.Route.Connect

/-!
# Delivery to every sink

What the link loop of `GetSeqPath` records for a whole tree, branch by branch, and when a
stream from the shim comes to every sink.

* `followBranch_linked`, `linkLoop_linked`: the links recorded for a branch and for a tree.
* `getSeqPath_delivers_iff`: **a completed loop delivers exactly if no tile feeds more than
  two points, and no branch that the 8-bit round counter takes for the first one starts
  away from the source.**
-/

namespace AieHlc.Route

open List

variable {bs : List (List Point)} {g : Grid} {sinks : List Point}

section Loops

variable {src p q : Point} {links : List (Point × Point)} {cleared : Point → Prop} {s s' : LinkState}

/-! ### One branch -/

theorem addPoint_mem (h : p ∈ s.points) : addPointToOrderedList s p = s := if_pos h

theorem mem_addPoint : p ∈ (addPointToOrderedList s p).points := by
  unfold addPointToOrderedList
  split
  · assumption
  · exact mem_append_right _ (mem_singleton.2 rfl)

theorem followBranch_addPoint (p : Point) (rest : List Point) (s : LinkState) :
    followBranch false (p :: rest) s = followBranch false (p :: rest) (addPointToOrderedList s p) := by
  simp only [followBranch, addPoint_mem mem_addPoint]

theorem followBranch_clear (p : Point) (rest : List Point) (s : LinkState) :
    followBranch true (p :: rest) s = followBranch false (p :: rest)
      (clearSlave (addPointToOrderedList s p) p) := by
  have hmem : p ∈ (clearSlave (addPointToOrderedList s p) p).points := mem_addPoint
  simp only [followBranch, addPoint_mem hmem, if_true, Bool.false_eq_true, if_false]

theorem followBranch_singleton (hp : p ∈ s.points) : followBranch false [p] s = some s := by
  simp only [followBranch, addPoint_mem hp, head?_nil, Option.bind_some, Bool.false_eq_true, if_false]

theorem followBranch_cons (hp : p ∈ s.points) (rest : List Point) :
    followBranch false (p :: q :: rest) s = (linkTo s p q).bind (followBranch false (q :: rest)) := by
  rw [followBranch]
  simp only [addPoint_mem hp, head?_cons, Bool.false_eq_true, if_false]

theorem newLinks_cons (seen : List Point) (p q : Point) (rest : List Point) :
    newLinks seen (p :: q :: rest) = (if q ∈ seen then [] else [(p, q)]) ++ newLinks seen (q :: rest) := by
  by_cases h : q ∈ seen
  · simp [newLinks, h]
  · simp [newLinks, h]

/-- **One branch**, from a point of the tree: its links to new points are recorded. -/
theorem followBranch_linked (seen : List Point) :
    ∀ (rest : List Point) {p : Point} {links : List (Point × Point)}
    {s s' : LinkState}, Linked src links cleared s → p ∈ s.points → (p :: rest).Nodup →
    (∀ x ∈ rest, x ∈ s.points ↔ x ∈ seen) → followBranch false (p :: rest) s = some s' →
    Linked src (links ++ newLinks seen (p :: rest)) cleared s' ∧
    ∀ x, x ∈ s'.points ↔ x ∈ s.points ∨ x ∈ rest := by
  intro rest
  induction rest with
  | nil =>
    intro p links s s' h hp _ _ hrun
    rw [followBranch_singleton hp, Option.some.injEq] at hrun
    subst hrun
    have hnil : links ++ newLinks seen [p] = links := append_nil links
    rw [hnil]
    exact ⟨h, fun x => by simp⟩
  | cons q rest ih =>
    intro p links s s' h hp hnodup hseen hrun
    obtain ⟨hpq, hnodup'⟩ := nodup_cons.1 hnodup
    have hqrest : q ∉ rest := (nodup_cons.1 hnodup').1
    rw [followBranch_cons hp] at hrun
    obtain ⟨s1, hlink, hrun⟩ := Option.bind_eq_some_iff.1 hrun
    rw [newLinks_cons, ← append_assoc]
    have hqseen := hseen q mem_cons_self
    unfold linkTo at hlink
    by_cases hq : q ∈ s.points
    · -- a point that is there already is passed over
      rw [if_pos ⟨hp, hq⟩, Option.some.injEq] at hlink
      subst hlink
      rw [if_pos (hqseen.1 hq), append_nil]
      obtain ⟨hl, hmem⟩ := ih h hq hnodup' (fun x hx => hseen x (mem_cons_of_mem _ hx)) hrun
      refine ⟨hl, fun x => ?_⟩
      rw [hmem x, mem_cons]
      exact ⟨fun hx => hx.imp_right .inr, fun hx => hx.elim .inl fun hx =>
        hx.elim (fun heq => .inl (heq ▸ hq)) .inr⟩
    · rw [if_neg fun hin => hq hin.2, decide_eq_true hq] at hlink
      obtain ⟨⟨m, l⟩, hocc, rfl⟩ := Option.map_eq_some_iff.1 hlink
      rw [if_neg fun hin => hq (hqseen.2 hin)]
      rw [followBranch_addPoint, addPointToOrderedList, if_neg hq] at hrun
      have hmem1 : ∀ x, x ∈ s.points ++ [q] ↔ x ∈ s.points ∨ x = q := by
        intro x
        rw [mem_append, mem_singleton]
      have hseen1 : ∀ x ∈ rest, x ∈ s.points ++ [q] ↔ x ∈ seen := by
        intro x hx
        have hne : x ≠ q := fun heq => hqrest (heq ▸ hx)
        rw [hmem1, ← hseen x (mem_cons_of_mem _ hx), or_iff_left hne]
      obtain ⟨hl, hmem⟩ := ih (h.hop hp hq hocc) (mem_append_right _ (mem_singleton.2 rfl))
        hnodup' hseen1 hrun
      refine ⟨hl, fun x => ?_⟩
      rw [hmem x, hmem1, mem_cons, or_assoc]

/-! ### All branches -/

theorem linkLoop_concat (b : List Point) : ∀ (bs : List (List Point)) {tree_round : ℕ} (s : LinkState),
    tree_round < 256 → linkLoop tree_round (bs ++ [b]) s =
      (linkLoop tree_round bs s).bind (followBranch ((tree_round + bs.length) % 256 == 0) b) := by
  intro bs
  induction bs with
  | nil =>
    intro r s hr
    rw [nil_append, length_nil, Nat.add_zero, Nat.mod_eq_of_lt hr]
    show (followBranch (r == 0) b s).bind some = followBranch (r == 0) b s
    exact Option.bind_fun_some _
  | cons b' bs ih =>
    intro r s hr
    rw [cons_append, linkLoop, linkLoop, Option.bind_assoc, length_cons]
    congr 1
    funext s1
    rw [ih s1 (Nat.mod_lt _ (by decide)), Nat.mod_add_mod, Nat.add_assoc, Nat.add_comm 1]

theorem treeLinks_concat (b : List Point) : ∀ (bs : List (List Point)) (seen : List Point),
    treeLinks seen (bs ++ [b]) = treeLinks seen bs ++ newLinks (seen ++ bs.flatten) b := by
  intro bs
  induction bs with
  | nil =>
    intro seen
    rw [nil_append, flatten_nil, append_nil]
    exact append_nil _
  | cons b' bs ih =>
    intro seen
    rw [cons_append, treeLinks, treeLinks, ih, flatten_cons, append_assoc, append_assoc]

theorem cleared_concat {b : List Point} {x : Point} :
    Cleared (bs ++ [b]) x ↔ Cleared bs x ∨ (bs.length % 256 = 0 ∧ b.head? = some x) := by
  constructor
  · rintro ⟨k, b', hk, hround, hhead⟩
    rcases Nat.lt_or_ge k bs.length with hlt | hge
    · rw [getElem?_append_left hlt] at hk
      exact .inl ⟨k, b', hk, hround, hhead⟩
    · rw [List.getElem?_append_right hge] at hk
      have hlt : k - bs.length < 1 := (List.getElem?_eq_some_iff.1 hk).1
      obtain rfl : k = bs.length := by omega
      rw [Nat.sub_self] at hk
      obtain rfl := Option.some.inj hk
      exact .inr ⟨hround, hhead⟩
  · rintro (⟨k, b', hk, hround, hhead⟩ | ⟨hround, hhead⟩)
    · exact ⟨k, b', getElem?_append_left (List.getElem?_eq_some_iff.1 hk).1 ▸ hk, hround, hhead⟩
    · exact ⟨bs.length, b, getElem?_concat_length, hround, hhead⟩

theorem Grown.sink_mem (h : Grown g src bs sinks) : ∀ x ∈ sinks, x ∈ bs.flatten := by
  induction h with
  | first hb _ =>
    intro x hx
    obtain rfl := mem_singleton.1 hx
    rw [flatten_singleton]
    exact mem_of_getLast? hb.last
  | branch _ _ hb _ ih =>
    intro x hx
    rw [flatten_append, flatten_singleton, mem_append]
    rcases mem_append.1 hx with hin | hin
    · exact .inl (ih x hin)
    · obtain rfl := mem_singleton.1 hin
      exact .inr (mem_of_getLast? hb.last)

theorem linked_init (m : ResourceMgr) (src : Point) :
    Linked src [] (fun _ => False) ⟨m, [src], fun _ => .new⟩ := by
  refine ⟨nodup_nil, not_mem_nil, ?_, nofun, ?_, fun _ => .nil rfl rfl, nofun, nofun, fun _ _ => rfl⟩
  · intro p
    simp
  · intro p hp
    obtain rfl := mem_singleton.1 hp
    exact .refl

theorem Linked.clear (h : Linked src links cleared s) (hp : p ∈ s.points) :
    Linked src links (fun x => cleared x ∨ x = p) (clearSlave s p) :=
  h.reslave hp fun _ => ⟨rfl, rfl⟩

/-- **All branches**: the links of the tree are recorded. -/
theorem linkLoop_linked {m : ResourceMgr} (h : Grown g src bs sinks) :
    ∀ {s : LinkState}, linkLoop 0 bs ⟨m, [], fun _ => .new⟩ = some s →
    Linked src (treeLinks [] bs) (Cleared bs) s ∧ ∀ x, x ∈ s.points ↔ x ∈ bs.flatten := by
  induction h with
  | @first b sink hb hnodup =>
    intro s hrun
    obtain ⟨rest, rfl⟩ := head?_eq_some_iff.1 hb.head
    have hcleared : (fun x => False ∨ x = src) = Cleared [src :: rest] := by
      funext x
      rw [← nil_append [src :: rest], cleared_concat]
      simp [Cleared, eq_comm]
    have hseen : ∀ x ∈ rest, x ∈ [src] ↔ x ∈ [] := by
      intro x hx
      have hne : x ≠ src := fun heq => (nodup_cons.1 hnodup).1 (heq ▸ hx)
      simp [hne]
    rw [← nil_append [src :: rest], linkLoop_concat _ [] _ (by decide)] at hrun
    obtain ⟨hl, hmem⟩ := followBranch_linked [] rest ((linked_init m src).clear (mem_singleton.2 rfl))
      (mem_singleton.2 rfl) hnodup hseen ((followBranch_clear src rest _).symm.trans hrun)
    rw [hcleared] at hl
    have hlinks : treeLinks [] [src :: rest] = newLinks [] (src :: rest) := append_nil _
    rw [hlinks]
    refine ⟨hl, fun x => ?_⟩
    rw [hmem x, flatten_singleton, mem_cons]
    show x ∈ [src] ∨ x ∈ rest ↔ _
    rw [mem_singleton]
  | @branch bs sinks b a sink hbs ha hb hnodup ih =>
    intro s hrun
    obtain ⟨rest, rfl⟩ := head?_eq_some_iff.1 hb.head
    rw [linkLoop_concat _ bs _ (by decide)] at hrun
    obtain ⟨s0, hrun0, hrun⟩ := Option.bind_eq_some_iff.1 hrun
    obtain ⟨h0, hmem0⟩ := ih hrun0
    have ha0 : a ∈ s0.points := (hmem0 a).2 ha
    have hseen : ∀ x ∈ rest, x ∈ s0.points ↔ x ∈ bs.flatten := fun x _ => hmem0 x
    have hflat : ∀ x, x ∈ (bs ++ [a :: rest]).flatten ↔ x ∈ s0.points ∨ x ∈ rest := by
      intro x
      rw [flatten_append, flatten_singleton, mem_append, ← hmem0 x, mem_cons]
      exact ⟨fun hx => hx.elim .inl fun hx => hx.elim (fun heq => .inl (heq ▸ ha0)) .inr, fun hx =>
        hx.imp_right .inr⟩
    rw [treeLinks_concat, nil_append]
    rw [Nat.zero_add] at hrun
    by_cases hround : bs.length % 256 = 0
    · rw [beq_iff_eq.2 hround, followBranch_clear, addPoint_mem ha0] at hrun
      have hcleared : (fun x => Cleared bs x ∨ x = a) = Cleared (bs ++ [a :: rest]) := by
        funext x
        rw [cleared_concat]
        simp [hround, eq_comm]
      obtain ⟨hl, hmem⟩ := followBranch_linked bs.flatten rest (h0.clear ha0) ha0 hnodup hseen hrun
      exact ⟨hcleared ▸ hl, fun x => (hmem x).trans (hflat x).symm⟩
    · rw [beq_eq_false_iff_ne.2 hround] at hrun
      have hcleared : Cleared bs = Cleared (bs ++ [a :: rest]) := by
        funext x
        rw [cleared_concat]
        simp [hround]
      obtain ⟨hl, hmem⟩ := followBranch_linked bs.flatten rest h0 ha0 hnodup hseen hrun
      exact ⟨hcleared ▸ hl, fun x => (hmem x).trans (hflat x).symm⟩

/-- The shim port is where the source of a stream into the array receives from. -/
theorem setShimPort_mm2s {d : DataIO} (hd : d.dmadir = .mm2s) : setShimPort d s =
    some { s with conn := Function.update s.conn d.shim { s.conn d.shim with
        slaveDir := (d.shimport.getD (.south, 3)).1, slavePort := (d.shimport.getD (.south, 3)).2 } } := by
  unfold setShimPort
  rw [hd]

end Loops

/-- **Delivery to every sink.** For a tree that `addIOTree` has grown from the shim, and a
link loop that has completed on any occupancy, the recorded data delivers exactly if no tile
feeds more than two points, and every branch that starts at a multiple of 256 of the round
counter starts at the source. -/
theorem getSeqPath_delivers_iff (g : Grid) (m : ResourceMgr) {d : DataIO} (hd : d.dmadir = .mm2s)
    (sinks : List Point)
    {rp : RoutingPath} (hadd : addIOTree g (some d) sinks .new = some (true, rp)) {s : LinkState}
    (hrun : getSeqPath m d rp.multipaths = some s) :
    Delivers s.conn d.shim rp.multipaths.branches.flatten sinks (treeLinks [] rp.multipaths.branches) ↔
      (∀ p, (kids (treeLinks [] rp.multipaths.branches) p).length ≤ 2) ∧
        ∀ p, Cleared rp.multipaths.branches p → p = d.shim := by
  obtain ⟨r, hr, hstored, _⟩ := addIOTree_spec (g := g) d sinks
  obtain rfl := Option.some.inj (hadd.symm.trans hr)
  obtain ⟨hends, src, hsrc, _, hgrown⟩ := hstored rfl
  unfold source at hsrc
  unfold endpoints at hends
  rw [hd] at hsrc hends
  obtain rfl := Option.some.inj hsrc
  obtain ⟨s0, hrun0, hset⟩ := Option.bind_eq_some_iff.1 hrun
  rw [setShimPort_mm2s hd, Option.some.injEq] at hset
  subst hset
  obtain ⟨hlinked, hpoints⟩ := linkLoop_linked hgrown hrun0
  have hsinks : ∀ x ∈ sinks, x ∈ rp.multipaths.branches.flatten := fun x hx =>
    hgrown.sink_mem x (hends.mem_iff.2 hx)
  have hshim := @Linked.reslave _ _ _ _ _ hlinked ((hlinked.points d.shim).2 (.inl rfl))
    (d.shimport.getD (.south, 3)).1 (d.shimport.getD (.south, 3)).2 fun hne => absurd rfl hne
  rw [hshim.delivers_iff hpoints hsinks]
  refine and_congr_right fun _ => forall_congr' fun p => ?_
  exact ⟨fun h hp => h (.inl hp), fun h hp => hp.elim h id⟩

def routeFlow (g : Grid) (d : DataIO) (sinks : List Point) : Option (RoutingPath × LinkState) :=
  (addIOTree g (some d) sinks .new).bind fun r =>
    if r.1 then (getSeqPath g.mgr d r.2.multipaths).map fun s => (r.2, s) else none

theorem routeFlow_eq_some {d : DataIO} {rp : RoutingPath} {s : LinkState}
    (h : routeFlow g d sinks = some (rp, s)) :
    addIOTree g (some d) sinks .new = some (true, rp) ∧ getSeqPath g.mgr d rp.multipaths = some s := by
  obtain ⟨⟨ok, rp'⟩, hadd, h⟩ := Option.bind_eq_some_iff.1 h
  cases ok with
  | false => exact nomatch h
  | true =>
    obtain ⟨s', hrun, heq⟩ := Option.map_eq_some_iff.1 h
    obtain ⟨rfl, rfl⟩ := Prod.mk.inj heq
    exact ⟨hadd, hrun⟩

theorem kids_le_of_starts {links : List (Point × Point)} {n : ℕ}
    (h : ∀ p ∈ links.map Prod.fst, (kids links p).length ≤ n) (p : Point) : (kids links p).length ≤ n := by
  cases hks : kids links p with
  | nil => exact Nat.zero_le n
  | cons q ks =>
    have hlink : (p, q) ∈ links := mem_kids.1 (hks ▸ mem_cons_self)
    exact hks ▸ h p (mem_map.2 ⟨_, hlink, rfl⟩)

/-- Two core tiles on either side of the shim's column. -/
theorem getSeqPath_delivers_fork : ∃ rp s,
    addIOTree (freeGrid 4 3) (some ⟨0, 1, .mm2s, none⟩) [⟨3, 0⟩, ⟨3, 2⟩] .new = some (true, rp) ∧
    getSeqPath (freeGrid 4 3).mgr ⟨0, 1, .mm2s, none⟩ rp.multipaths = some s ∧
    Delivers s.conn ⟨0, 1⟩ rp.multipaths.branches.flatten [⟨3, 0⟩, ⟨3, 2⟩]
      (treeLinks [] rp.multipaths.branches) := by
  have hrun : (routeFlow (freeGrid 4 3) ⟨0, 1, .mm2s, none⟩ [⟨3, 0⟩, ⟨3, 2⟩]).map (·.1.multipaths.branches) =
      some [[⟨0, 1⟩, ⟨1, 1⟩, ⟨2, 1⟩, ⟨3, 1⟩, ⟨3, 0⟩], [⟨3, 1⟩, ⟨3, 2⟩]] := by
    decide +kernel
  obtain ⟨⟨rp, s⟩, hflow, hbranches⟩ := Option.map_eq_some_iff.1 hrun
  obtain ⟨hadd, hlinks⟩ := routeFlow_eq_some hflow
  refine ⟨rp, s, hadd, hlinks, (getSeqPath_delivers_iff _ _ rfl _ hadd hlinks).2 ?_⟩
  dsimp only at hbranches
  rw [hbranches]
  refine ⟨kids_le_of_starts (by decide), ?_⟩
  rintro p ⟨k, b, hk, hround, hhead⟩
  have hlt : k < 2 := (List.getElem?_eq_some_iff.1 hk).1
  obtain rfl : k = 0 := by omega
  obtain rfl := Option.some.inj hk
  exact (Option.some.inj hhead).symm

/-- Three core tiles around the top of the shim's column: the tile between them records the
third direction in place of the second, and its upper neighbour is not fed. -/
theorem not_delivers_three : ∃ rp s,
    addIOTree (freeGrid 5 3) (some ⟨0, 1, .mm2s, none⟩) [⟨3, 0⟩, ⟨4, 1⟩, ⟨3, 2⟩] .new = some (true, rp) ∧
    getSeqPath (freeGrid 5 3).mgr ⟨0, 1, .mm2s, none⟩ rp.multipaths = some s ∧
    ¬Delivers s.conn ⟨0, 1⟩ rp.multipaths.branches.flatten [⟨3, 0⟩, ⟨4, 1⟩, ⟨3, 2⟩]
      (treeLinks [] rp.multipaths.branches) := by
  have hrun : (routeFlow (freeGrid 5 3) ⟨0, 1, .mm2s, none⟩ [⟨3, 0⟩, ⟨4, 1⟩, ⟨3, 2⟩]).map
      (fun r => (r.1.multipaths.branches, r.2.conn ⟨3, 1⟩)) =
      some ([[⟨0, 1⟩, ⟨1, 1⟩, ⟨2, 1⟩, ⟨3, 1⟩, ⟨3, 0⟩], [⟨3, 1⟩, ⟨4, 1⟩], [⟨3, 1⟩, ⟨3, 2⟩]],
        ⟨.south, 0, .west, 0, .east, 0⟩) := by
    decide +kernel
  obtain ⟨⟨rp, s⟩, hflow, heq⟩ := Option.map_eq_some_iff.1 hrun
  obtain ⟨hadd, hlinks⟩ := routeFlow_eq_some hflow
  obtain ⟨hbranches, hconn⟩ := Prod.mk.inj heq
  refine ⟨rp, s, hadd, hlinks, fun hd => ?_⟩
  dsimp only at hbranches hconn
  rw [hbranches] at hd
  obtain ⟨port, dir, hdir, hsends⟩ := hd.masters (⟨3, 1⟩, ⟨4, 1⟩) (by decide)
  have hnorth : getDir ⟨3, 1⟩ ⟨4, 1⟩ = some .north := by decide
  obtain rfl := Option.some.inj (hnorth.symm.trans hdir)
  rw [hconn] at hsends
  rcases hsends with ⟨h, _⟩ | ⟨h, _⟩ <;> exact nomatch h

end AieHlc.Route
