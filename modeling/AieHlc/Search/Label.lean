import Mathlib.Algebra.Order.BigOperators.Group.Finset
import Mathlib.Data.List.Chain
import Mathlib.Data.List.Nodup

/-!
# Label-correcting search

Search of a graph from a start node, with a distance and a parent for each node met. A
queue holds nodes to expand with the distance they had when queued; the order in which it
is emptied does not matter, so distances may be lowered after a node was expanded, and the
node is then queued again. The search stops when it takes the goal from the queue.

* `relax`, `search`: one edge, and the loop.
* `Inv`: distances fall along parents; what is not queued is expanded.
* `pot`: a bound on the rounds left, from the distances and the queue.
* `search_spec`: **the search ends, and labels the goal exactly if it is reachable.**
* `backtrack_spec`: following parents from the goal gives a path without repetition.
-/

namespace AieHlc.Search

open Option Function List

variable {V : Type} [DecidableEq V]

/-! ### The search -/

/-- Distances, parents, and the queue. -/
structure Labels (V : Type) where
  dist : V → Option ℕ
  parent : V → V
  queue : List (ℕ × V)

def Shorter (d : ℕ) : Option ℕ → Prop
  | none => True
  | some e => d < e

instance (d : ℕ) : (o : Option ℕ) → Decidable (Shorter d o)
  | none => inferInstanceAs (Decidable True)
  | some e => inferInstanceAs (Decidable (d < e))

/-- A queue entry is stale: the node has a shorter distance by now. -/
def Stale (d : ℕ) : Option ℕ → Prop
  | none => False
  | some e => e < d

instance (d : ℕ) : (o : Option ℕ) → Decidable (Stale d o)
  | none => inferInstanceAs (Decidable False)
  | some e => inferInstanceAs (Decidable (e < d))

/-- Node `w` gets distance `d`, through `u`. -/
def Labels.set (s : Labels V) (u w : V) (d : ℕ) : Labels V :=
  ⟨update s.dist w (some d), update s.parent w u, (d, w) :: s.queue⟩

theorem set_dist (s : Labels V) (u w : V) (d : ℕ) (v : V) :
    (s.set u w d).dist v = if v = w then some d else s.dist v := by
  rw [Labels.set]
  exact update_apply ..

/-- The edge from `u` to `w`. -/
def relax (u : V) (s : Labels V) (w : V) : Labels V :=
  match s.dist u with
  | none => s
  | some d => if Shorter (d + 1) (s.dist w) then s.set u w (d + 1) else s

section Search

variable (pop : List (ℕ × V) → Option ((ℕ × V) × List (ℕ × V))) (next : V → List V) (goal : V)

def search : ℕ → Labels V → Option (Labels V)
  | 0, _ => none
  | fuel + 1, s =>
    match pop s.queue with
    | none => some s
    | some ((d, u), q) =>
      if Stale d (s.dist u) then search fuel { s with queue := q }
      else if u = goal then some { s with queue := q }
      else search fuel ((next u).foldl (relax u) { s with queue := q })

end Search

/-- The labels a search starts with; parents may be left from an earlier one. -/
def Labels.init (start : V) (parent : V → V) : Labels V :=
  ⟨update (fun _ => none) start (some 0), parent, [(0, start)]⟩

/-- From a node along the parents to the start; the nodes passed, without the start. -/
def backtrack (parent : V → V) (start : V) : ℕ → V → List V → Option (List V)
  | 0, _, _ => none
  | fuel + 1, v, out => if v = start then some out else backtrack parent start fuel (parent v) (out ++ [v])

/-- Taking an entry from the queue, in some order. -/
structure Pops (pop : List (ℕ × V) → Option ((ℕ × V) × List (ℕ × V))) : Prop where
  none : ∀ q, pop q = none → q = []
  some : ∀ q e q', pop q = some (e, q') → q.Perm (e :: q')

/-! ### The invariant -/

section Invariant

variable {next : V → List V} {start u w : V} {todo : List V} {s : Labels V} {d : ℕ}

/-- While node `u` is expanded and the edges to `todo` are left: distances fall along
parents, and a labelled node is queued with its distance or all its neighbours have a
label at most one larger. -/
structure Inv (next : V → List V) (start u : V) (todo : List V) (s : Labels V) : Prop where
  root : s.dist start = some 0
  queued : ∀ d v, (d, v) ∈ s.queue → ∃ e, s.dist v = some e ∧ e ≤ d
  parent : ∀ v d, s.dist v = some d → v ≠ start →
    ∃ e, s.dist (s.parent v) = some e ∧ e < d ∧ v ∈ next (s.parent v)
  closed : ∀ v d, s.dist v = some d → (d, v) ∈ s.queue ∨
    ∀ w ∈ next v, (v = u ∧ w ∈ todo) ∨ ∃ e, s.dist w = some e ∧ e ≤ d + 1

theorem init_dist (start : V) (parent : V → V) (v : V) :
    (Labels.init start parent).dist v = if v = start then some 0 else none := by
  rw [Labels.init]
  exact update_apply (fun _ => none) start (some 0) v

theorem Inv.init (next : V → List V) (start u : V) (parent : V → V) :
    Inv next start u [] (Labels.init start parent) := by
  have hroot : (Labels.init start parent).dist start = some 0 := (init_dist ..).trans (if_pos rfl)
  have hdist : ∀ v d, (Labels.init start parent).dist v = some d → v = start ∧ d = 0 := by
    intro v d hv
    rw [init_dist] at hv
    split at hv
    · exact ⟨‹_›, (some.inj hv).symm⟩
    · exact nomatch hv
  refine ⟨hroot, ?_, ?_, ?_⟩
  · intro d v hv
    obtain ⟨rfl, rfl⟩ := Prod.mk.inj (mem_singleton.1 hv)
    exact ⟨0, hroot, le_refl _⟩
  · intro v d hv hvs
    exact absurd (hdist v d hv).1 hvs
  · intro v d hv
    obtain ⟨rfl, rfl⟩ := hdist v d hv
    exact .inl mem_cons_self

theorem dist_of_not_shorter {o : Option ℕ} (h : ¬Shorter d o) : ∃ e, o = some e ∧ e ≤ d := by
  cases o with
  | none => exact absurd trivial h
  | some e => exact ⟨e, rfl, Nat.le_of_not_lt h⟩

theorem set_dist_le (hshort : Shorter d (s.dist w)) {v : V} {e : ℕ} (hv : s.dist v = some e) :
    ∃ e', (s.set u w d).dist v = some e' ∧ e' ≤ e := by
  by_cases hvw : v = w
  · subst hvw
    rw [hv] at hshort
    exact ⟨d, update_self .., le_of_lt hshort⟩
  · exact ⟨e, (update_of_ne hvw ..).trans hv, le_refl _⟩

/-- A label that gets shorter. Labels of other nodes and their parents stay. -/
theorem Inv.set (h : Inv next start u (w :: todo) s) (hu : s.dist u = some d) (hw : w ∈ next u)
    (hshort : Shorter (d + 1) (s.dist w)) : Inv next start u todo (s.set u w (d + 1)) := by
  have hne : w ≠ start := by
    rintro rfl
    rw [h.root] at hshort
    exact absurd hshort (Nat.not_lt_zero _)
  have huw : u ≠ w := by
    rintro rfl
    rw [hu] at hshort
    exact absurd hshort (not_lt.2 (Nat.le_succ d))
  have hother : ∀ v, v ≠ w → (s.set u w (d + 1)).dist v = s.dist v := fun v hv => update_of_ne hv ..
  refine ⟨(hother start hne.symm).trans h.root, ?_, ?_, ?_⟩
  · intro e v hv
    rcases mem_cons.1 hv with heq | hv
    · obtain ⟨rfl, rfl⟩ := Prod.mk.inj heq
      exact ⟨d + 1, update_self .., le_refl _⟩
    · obtain ⟨e', hdist, hle⟩ := h.queued e v hv
      obtain ⟨e'', hdist', hle'⟩ := set_dist_le (u := u) hshort hdist
      exact ⟨e'', hdist', hle'.trans hle⟩
  · intro v e hv hvs
    by_cases hvw : v = w
    · subst hvw
      have hdist : (s.set u v (d + 1)).dist v = some (d + 1) := update_self ..
      have hpar : (s.set u v (d + 1)).parent v = u := update_self ..
      rw [hpar, hother u huw, hu]
      rw [hdist] at hv
      obtain rfl := some.inj hv
      exact ⟨d, rfl, Nat.lt_succ_self d, hw⟩
    · rw [hother v hvw] at hv
      have hpar : (s.set u w (d + 1)).parent v = s.parent v := update_of_ne hvw ..
      obtain ⟨e', hdist, hlt, hnext⟩ := h.parent v e hv hvs
      obtain ⟨e'', hdist', hle⟩ := set_dist_le (u := u) hshort hdist
      rw [hpar]
      exact ⟨e'', hdist', hle.trans_lt hlt, hnext⟩
  · intro v e hv
    by_cases hvw : v = w
    · subst hvw
      have hdist : (s.set u v (d + 1)).dist v = some (d + 1) := update_self ..
      rw [hdist] at hv
      obtain rfl := some.inj hv
      exact .inl mem_cons_self
    · rw [hother v hvw] at hv
      rcases h.closed v e hv with hq | hclosed
      · exact .inl (mem_cons_of_mem _ hq)
      · right
        intro x hx
        rcases hclosed x hx with ⟨rfl, hmem⟩ | ⟨e', hdist, hle⟩
        · rcases mem_cons.1 hmem with rfl | hmem
          · -- the edge that has just been used
            rw [hu] at hv
            obtain rfl := some.inj hv
            exact .inr ⟨d + 1, update_self .., le_refl _⟩
          · exact .inl ⟨rfl, hmem⟩
        · obtain ⟨e'', hdist', hle'⟩ := set_dist_le (u := u) hshort hdist
          exact .inr ⟨e'', hdist', hle'.trans hle⟩

omit [DecidableEq V] in
/-- A label that is short enough stays, and the neighbour is done. -/
theorem Inv.skip (h : Inv next start u (w :: todo) s) (hu : s.dist u = some d)
    (hlong : ¬Shorter (d + 1) (s.dist w)) : Inv next start u todo s := by
  refine ⟨h.root, h.queued, h.parent, ?_⟩
  intro v e hv
  rcases h.closed v e hv with hq | hclosed
  · exact .inl hq
  · right
    intro x hx
    rcases hclosed x hx with ⟨rfl, hmem⟩ | hfound
    · rcases mem_cons.1 hmem with rfl | hmem
      · rw [hu] at hv
        obtain rfl := some.inj hv
        exact .inr (dist_of_not_shorter hlong)
      · exact .inl ⟨rfl, hmem⟩
    · exact .inr hfound

/-- **One edge.** -/
theorem relax_inv (h : Inv next start u (w :: todo) s) (hu : s.dist u = some d) (hw : w ∈ next u) :
    Inv next start u todo (relax u s w) ∧ (relax u s w).dist u = some d := by
  rw [relax, hu]
  dsimp only
  by_cases hshort : Shorter (d + 1) (s.dist w)
  · rw [if_pos hshort]
    refine ⟨h.set hu hw hshort, ?_⟩
    have huw : u ≠ w := by
      rintro rfl
      rw [hu] at hshort
      exact absurd hshort (not_lt.2 (Nat.le_succ d))
    exact (update_of_ne huw ..).trans hu
  · rw [if_neg hshort]
    exact ⟨h.skip hu hshort, hu⟩

theorem expand_inv : ∀ {todo : List V} {s : Labels V}, Inv next start u todo s → s.dist u = some d →
    (∀ w ∈ todo, w ∈ next u) → Inv next start u [] (todo.foldl (relax u) s) := by
  intro todo
  induction todo with
  | nil => exact fun h _ _ => h
  | cons w todo ih =>
    intro s h hu hsub
    obtain ⟨hinv, hu'⟩ := relax_inv h hu (hsub w mem_cons_self)
    exact ih hinv hu' fun x hx => hsub x (mem_cons_of_mem _ hx)

omit [DecidableEq V] in
/-- Taking an entry that is not stale: its node is still to be expanded. -/
theorem Inv.pop {q : List (ℕ × V)} {u' : V} (h : Inv next start u' [] s) (hperm : s.queue.Perm ((d, u) :: q))
    (hlive : ¬Stale d (s.dist u)) :
    Inv next start u (next u) { s with queue := q } ∧ s.dist u = some d := by
  obtain ⟨e, hdist, hle⟩ := h.queued d u (hperm.mem_iff.2 mem_cons_self)
  rw [hdist] at hlive
  have hde : e = d := le_antisymm hle (Nat.le_of_not_lt hlive)
  subst hde
  refine ⟨⟨h.root, fun x v hv => h.queued x v (hperm.mem_iff.2 (mem_cons_of_mem _ hv)), h.parent, ?_⟩, hdist⟩
  intro v x hv
  rcases h.closed v x hv with hq | hclosed
  · rcases mem_cons.1 (hperm.mem_iff.1 hq) with heq | hq
    · obtain ⟨rfl, rfl⟩ := Prod.mk.inj heq
      exact .inr fun w hw => .inl ⟨rfl, hw⟩
    · exact .inl hq
  · right
    intro w hw
    rcases hclosed w hw with ⟨_, hmem⟩ | hfound
    · exact absurd hmem not_mem_nil
    · exact .inr hfound

omit [DecidableEq V] in
/-- A stale entry of the queue is dropped. -/
theorem Inv.drop {q : List (ℕ × V)} {u' : V} (h : Inv next start u' [] s) (hperm : s.queue.Perm ((d, u) :: q))
    (hstale : Stale d (s.dist u)) : Inv next start u' [] { s with queue := q } := by
  refine ⟨h.root, fun x v hv => h.queued x v (hperm.mem_iff.2 (mem_cons_of_mem _ hv)), h.parent, ?_⟩
  intro v x hv
  rcases h.closed v x hv with hq | hclosed
  · rcases mem_cons.1 (hperm.mem_iff.1 hq) with heq | hq
    · obtain ⟨rfl, rfl⟩ := Prod.mk.inj heq
      rw [hv] at hstale
      exact absurd hstale (lt_irrefl _)
    · exact .inl hq
  · exact .inr hclosed

end Invariant

/-! ### Termination -/

section Bound

variable {next : V → List V} {nodes : Finset V} {u w : V} {s : Labels V} {d : ℕ}

def labelled (nodes : Finset V) (s : Labels V) : ℕ := (nodes.filter fun v => (s.dist v).isSome).card

/-- Labels are on nodes of the graph, and smaller than the number of labelled nodes. -/
def Bounded (nodes : Finset V) (s : Labels V) : Prop :=
  ∀ v d, s.dist v = some d → v ∈ nodes ∧ d < labelled nodes s

/-- What a label counts. -/
def cost (nodes : Finset V) (o : Option ℕ) : ℕ := o.getD nodes.card

/-- A bound on the rounds left. -/
def pot (nodes : Finset V) (s : Labels V) : ℕ := 2 * (∑ v ∈ nodes, cost nodes (s.dist v)) + s.queue.length

omit [DecidableEq V] in
theorem labelled_le (nodes : Finset V) (s : Labels V) : labelled nodes s ≤ nodes.card :=
  Finset.card_filter_le ..

theorem set_labelled (hw : w ∈ nodes) :
    labelled nodes s ≤ labelled nodes (s.set u w d) ∧
      (s.dist w = none → labelled nodes (s.set u w d) = labelled nodes s + 1) := by
  have hset : nodes.filter (fun v => ((s.set u w d).dist v).isSome) =
      insert w (nodes.filter fun v => (s.dist v).isSome) := by
    ext v
    rw [Finset.mem_insert, Finset.mem_filter, Finset.mem_filter, set_dist]
    by_cases hvw : v = w
    · subst hvw
      simp [hw]
    · simp [hvw]
  rw [labelled, labelled, hset]
  refine ⟨Finset.card_le_card (Finset.subset_insert _ _), ?_⟩
  intro hnone
  refine Finset.card_insert_of_notMem fun hin => ?_
  rw [Finset.mem_filter, hnone] at hin
  exact absurd hin.2 Bool.false_ne_true

theorem set_bounded (h : Bounded nodes s) (hu : s.dist u = some d) (hw : w ∈ nodes)
    (hshort : Shorter (d + 1) (s.dist w)) : Bounded nodes (s.set u w (d + 1)) := by
  obtain ⟨hmono, hnew⟩ := @set_labelled _ _ nodes u w s (d + 1) hw
  intro v e hv
  rw [set_dist] at hv
  by_cases hvw : v = w
  · rw [if_pos hvw] at hv
    obtain rfl := some.inj hv
    refine ⟨hvw ▸ hw, ?_⟩
    cases hdist : s.dist w with
    | none =>
      rw [hnew hdist]
      exact Nat.succ_lt_succ (h u d hu).2
    | some x =>
      rw [hdist] at hshort
      exact (hshort.trans (h w x hdist).2).trans_le hmono
  · rw [if_neg hvw] at hv
    exact ⟨(h v e hv).1, (h v e hv).2.trans_le hmono⟩

theorem sum_update (f : V → Option ℕ) (o : Option ℕ) (hw : w ∈ nodes) :
    (∑ v ∈ nodes, cost nodes (update f w o v)) + cost nodes (f w) =
      (∑ v ∈ nodes, cost nodes (f v)) + cost nodes o := by
  rw [← Finset.add_sum_erase _ _ hw, ← Finset.add_sum_erase _ _ hw, update_self]
  have hrest : ∑ v ∈ nodes.erase w, cost nodes (update f w o v) = ∑ v ∈ nodes.erase w, cost nodes (f v) := by
    refine Finset.sum_congr rfl fun v hv => ?_
    rw [update_of_ne (Finset.ne_of_mem_erase hv)]
  rw [hrest]
  omega

/-- A shorter label pays for the entry it puts in the queue. -/
theorem set_pot (h : Bounded nodes s) (hu : s.dist u = some d) (hw : w ∈ nodes)
    (hshort : Shorter (d + 1) (s.dist w)) : pot nodes (s.set u w (d + 1)) ≤ pot nodes s := by
  have hsum := sum_update s.dist (some (d + 1)) hw
  have hsmall : d + 1 < nodes.card ∨ s.dist w ≠ none := by
    by_cases hnone : s.dist w = none
    · left
      have hbound := (set_bounded h hu hw hshort w (d + 1) (update_self ..)).2
      exact hbound.trans_le (labelled_le ..)
    · exact .inr hnone
  have hless : cost nodes (some (d + 1)) < cost nodes (s.dist w) := by
    cases hdist : s.dist w with
    | none => exact hsmall.resolve_right (not_not.2 hdist)
    | some e =>
      rw [hdist] at hshort
      exact hshort
  have hqueue : (s.set u w (d + 1)).queue.length = s.queue.length + 1 := rfl
  have hdists : (s.set u w (d + 1)).dist = update s.dist w (some (d + 1)) := rfl
  rw [pot, pot, hqueue, hdists]
  omega

theorem relax_bound (h : Bounded nodes s) (hw : w ∈ nodes) :
    Bounded nodes (relax u s w) ∧ pot nodes (relax u s w) ≤ pot nodes s := by
  rw [relax]
  cases hu : s.dist u with
  | none => exact ⟨h, le_refl _⟩
  | some d =>
    dsimp only
    split
    · exact ⟨set_bounded h hu hw ‹_›, set_pot h hu hw ‹_›⟩
    · exact ⟨h, le_refl _⟩

theorem expand_bound : ∀ {todo : List V} {s : Labels V}, Bounded nodes s → (∀ w ∈ todo, w ∈ nodes) →
    Bounded nodes (todo.foldl (relax u) s) ∧ pot nodes (todo.foldl (relax u) s) ≤ pot nodes s := by
  intro todo
  induction todo with
  | nil => exact fun h _ => ⟨h, le_refl _⟩
  | cons w todo ih =>
    intro s h hsub
    obtain ⟨hb, hp⟩ := @relax_bound _ _ nodes u w s h (hsub w mem_cons_self)
    obtain ⟨hb', hp'⟩ := ih hb fun x hx => hsub x (mem_cons_of_mem _ hx)
    exact ⟨hb', hp'.trans hp⟩

omit [DecidableEq V] in
theorem pot_pop {e : ℕ × V} {q : List (ℕ × V)} (hperm : s.queue.Perm (e :: q)) :
    pot nodes { s with queue := q } + 1 = pot nodes s := by
  rw [pot, pot, hperm.length_eq, length_cons]
  rfl

end Bound

/-! ### The result -/

section Result

variable {pop : List (ℕ × V) → Option ((ℕ × V) × List (ℕ × V))} {next : V → List V} {nodes : Finset V}
  {start goal : V}

/-- Labels that a search ends with: distances fall along parents, and if the goal has no
label then all neighbours of labelled nodes are labelled. -/
structure Ends (next : V → List V) (start goal : V) (s : Labels V) : Prop where
  root : s.dist start = some 0
  parent : ∀ v d, s.dist v = some d → v ≠ start →
    ∃ e, s.dist (s.parent v) = some e ∧ e < d ∧ v ∈ next (s.parent v)
  closed : s.dist goal = none → ∀ v d, s.dist v = some d → ∀ w ∈ next v, s.dist w ≠ none

/-- The potential falls with every entry taken, so the search ends. -/
theorem search_ends (hpop : Pops pop) (hnodes : ∀ v ∈ nodes, ∀ w ∈ next v, w ∈ nodes) :
    ∀ (fuel : ℕ) (s : Labels V) (u : V), Inv next start u [] s → Bounded nodes s → pot nodes s < fuel →
      ∃ s', search pop next goal fuel s = some s' ∧ Ends next start goal s' ∧ Bounded nodes s' := by
  intro fuel
  induction fuel with
  | zero => exact fun s u _ _ h => absurd h (Nat.not_lt_zero _)
  | succ fuel ih =>
    intro s u hinv hbound hpot
    rw [search]
    cases hq : pop s.queue with
    | none =>
      refine ⟨s, rfl, ⟨hinv.root, hinv.parent, ?_⟩, hbound⟩
      intro _ v d hv w hw
      rcases hinv.closed v d hv with hin | hclosed
      · rw [hpop.none _ hq] at hin
        exact absurd hin not_mem_nil
      · rcases hclosed w hw with ⟨_, hin⟩ | ⟨e, he, _⟩
        · exact absurd hin not_mem_nil
        · rw [he]
          exact some_ne_none e
    | some r =>
      obtain ⟨⟨d, v⟩, q⟩ := r
      have hperm := hpop.some _ _ _ hq
      have hless : pot nodes { s with queue := q } + 1 = pot nodes s := pot_pop hperm
      dsimp only
      by_cases hstale : Stale d (s.dist v)
      · rw [if_pos hstale]
        exact ih _ u (hinv.drop hperm hstale) hbound (by omega)
      · rw [if_neg hstale]
        obtain ⟨hexp, hdist⟩ := hinv.pop hperm hstale
        by_cases hgoal : v = goal
        · -- the goal is labelled
          rw [if_pos hgoal]
          refine ⟨_, rfl, ⟨hinv.root, hinv.parent, ?_⟩, hbound⟩
          intro hnone
          rw [hgoal] at hdist
          exact absurd (hdist.symm.trans hnone) (some_ne_none d)
        · rw [if_neg hgoal]
          obtain ⟨hb, hp⟩ := @expand_bound _ _ nodes v (next v) { s with queue := q } hbound
            (hnodes v (hbound v d hdist).1)
          exact ih _ v (expand_inv hexp hdist fun _ hw => hw) hb (by omega)

/-- **The search ends** and labels the goal exactly if it is reachable. -/
theorem search_spec (hpop : Pops pop) (hnodes : ∀ v ∈ nodes, ∀ w ∈ next v, w ∈ nodes) (hstart : start ∈ nodes)
    (parent : V → V) {fuel : ℕ} (hfuel : 2 * nodes.card * nodes.card + 1 < fuel) :
    ∃ s, search pop next goal fuel (Labels.init start parent) = some s ∧ Ends next start goal s ∧
    Bounded nodes s ∧
      (s.dist goal ≠ none ↔ Relation.ReflTransGen (fun u v => v ∈ next u) start goal) := by
  have hbound : Bounded nodes (Labels.init start parent) := by
    intro v d hv
    rw [init_dist] at hv
    split at hv
    · obtain rfl := some.inj hv
      subst ‹v = start›
      refine ⟨hstart, Finset.card_pos.2 ⟨v, Finset.mem_filter.2 ⟨hstart, ?_⟩⟩⟩
      rw [init_dist, if_pos rfl]
      rfl
    · exact nomatch hv
  have hpot : pot nodes (Labels.init start parent) ≤ 2 * nodes.card * nodes.card + 1 := by
    have hsum : ∑ v ∈ nodes, cost nodes ((Labels.init start parent).dist v) ≤ nodes.card * nodes.card := by
      refine Finset.sum_le_card_nsmul _ _ _ fun v _ => ?_
      rw [init_dist]
      split
      · exact Nat.zero_le _
      · exact le_refl _
    have hqueue : (Labels.init start parent).queue.length = 1 := rfl
    rw [pot, hqueue, mul_assoc]
    omega
  obtain ⟨s, hrun, hends, hb⟩ := search_ends hpop hnodes fuel _ start
    (Inv.init next start start parent) hbound
    (hpot.trans_lt hfuel)
  refine ⟨s, hrun, hends, hb, ?_, ?_⟩
  · -- the label of a node is as long as its parents are reachable
    intro hne
    have hreach : ∀ d v, s.dist v = some d → Relation.ReflTransGen (fun u v => v ∈ next u) start v := by
      intro d
      induction d using Nat.strong_induction_on with
      | _ d ih =>
        intro v hv
        by_cases hvs : v = start
        · rw [hvs]
        · obtain ⟨e, hpar, hlt, hnext⟩ := hends.parent v d hv hvs
          exact (ih e hlt _ hpar).tail hnext
    obtain ⟨d, hd⟩ := ne_none_iff_exists'.1 hne
    exact hreach d goal hd
  · intro hreach hnone
    have hall : ∀ v, Relation.ReflTransGen (fun u v => v ∈ next u) start v → s.dist v ≠ none := by
      intro v hv
      induction hv with
      | refl =>
        rw [hends.root]
        exact some_ne_none 0
      | tail _ hstep ih =>
        obtain ⟨d, hd⟩ := ne_none_iff_exists'.1 ih
        exact hends.closed hnone _ d hd _ hstep
    exact hall goal hreach hnone

/-- **The way back** from a labelled node: a path from the start to it, without repetition. -/
theorem backtrack_spec {s : Labels V} (h : Ends next start goal s) : ∀ (fuel d : ℕ) (v : V) (out : List V),
    s.dist v = some d → d < fuel → ∃ path, backtrack s.parent start fuel v out = some (out ++ path) ∧
      (start :: path.reverse).IsChain (fun u w => w ∈ next u) ∧ (start :: path.reverse).Nodup ∧
      (start :: path.reverse).getLast? = some v ∧ ∀ w ∈ path, ∃ e, s.dist w = some e ∧ 0 < e ∧ e ≤ d := by
  intro fuel
  induction fuel with
  | zero => exact fun d v out _ hlt => absurd hlt (Nat.not_lt_zero _)
  | succ fuel ih =>
    intro d v out hv hlt
    rw [backtrack]
    by_cases hvs : v = start
    · rw [if_pos hvs]
      refine ⟨[], by rw [append_nil], isChain_singleton _, nodup_singleton _, ?_, nofun⟩
      rw [hvs]
      rfl
    · rw [if_neg hvs]
      obtain ⟨e, hpar, hed, hnext⟩ := h.parent v d hv hvs
      obtain ⟨path, hrun, hchain, hnodup, hlast, hdist⟩ := ih e (s.parent v) (out ++ [v]) hpar (by omega)
      have hdist' : ∀ w ∈ v :: path, ∃ e, s.dist w = some e ∧ 0 < e ∧ e ≤ d := by
        intro w hw
        rcases mem_cons.1 hw with rfl | hw
        · exact ⟨d, hv, Nat.zero_lt_of_lt hed, le_refl _⟩
        · obtain ⟨x, hx, hpos, hle⟩ := hdist w hw
          exact ⟨x, hx, hpos, hle.trans hed.le⟩
      have hsplit : start :: (v :: path).reverse = (start :: path.reverse) ++ [v] := by
        rw [reverse_cons, cons_append]
      refine ⟨v :: path, ?_, ?_, ?_, ?_, hdist'⟩
      · rw [hrun, append_assoc]
        rfl
      · rw [hsplit]
        refine List.IsChain.append hchain (isChain_singleton _) ?_
        intro x hx y hy
        rw [hlast] at hx
        obtain rfl := some.inj hx
        obtain rfl := some.inj hy
        exact hnext
      · rw [hsplit]
        refine nodup_append.2 ⟨hnodup, nodup_singleton _, ?_⟩
        intro x hx y hy hxy
        rw [mem_singleton.1 hy] at hxy
        subst hxy
        -- the labels on the path are smaller than that of its end
        rcases mem_cons.1 hx with rfl | hx
        · exact hvs rfl
        · obtain ⟨x', hx', _, hle⟩ := hdist x (mem_reverse.1 hx)
          rw [hv] at hx'
          obtain rfl := some.inj hx'
          omega
      · rw [hsplit, getLast?_concat]

end Result

end AieHlc.Search
