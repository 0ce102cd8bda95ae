import AieHlc.Route.Path
import Mathlib.Data.List.Sort

/-!
# Routing trees

Model of `nearestTreePoint` and `addIOTree` (`routingpath.cpp`): the sinks of a flow, by
column and row, are each reached from the nearest point of the tree grown so far. The
result is stored only when all sinks are reached.

* `addIOTree`: the growth of a tree.
* `Grown`: a tree grown branch by branch.
* `Connectable`: routes to all ends, from wherever a branch may be attached.
* `addIOTree_spec`: **what is stored**, by the value returned; the growth succeeds where the ends
  are connectable.
-/

namespace AieHlc.Route

open Option List

/-- `DMADIRECTION`. -/
inductive DmaDirection where
  | mm2s
  | s2mm
  deriving DecidableEq, Repr

/-- What routing reads of a `DataIO`: the shim tile, the direction, and the shim port. -/
structure DataIO where
  rowpos : ℤ
  colpos : ℤ
  dmadir : DmaDirection
  shimport : Option (PortDirection × ℕ)

/-- The shim tile of a `DataIO`. -/
def DataIO.shim (d : DataIO) : Point := ⟨d.rowpos, d.colpos⟩

/-- `MultiPath`; its source is not set before a tree is stored. -/
structure MultiPath where
  src : Option Point
  dsts : List Point
  branches : List (List Point)

/-- What `addIOTree` reads and writes of a `RoutingPath`. -/
structure RoutingPath where
  paths : List (List Point)
  parent : Point → Point
  multipaths : MultiPath

/-- A `RoutingPath` as it is constructed. -/
def RoutingPath.new : RoutingPath := ⟨[], fun _ => ⟨-1, -1⟩, ⟨none, [], []⟩⟩

/-- The distance that `nearestTreePoint` compares. -/
def manhattan (a b : Point) : ℕ := (a.r - b.r).natAbs + (a.c - b.c).natAbs

/-- One point of `nearestTreePoint`: the best distance so far, and where. -/
def nearer (dst : Point) (s : Option ℕ × Point) (p : Point) : Option ℕ × Point :=
  match s.1 with
  | none => (some (manhattan p dst), p)
  | some best => if manhattan p dst < best then (some (manhattan p dst), p) else s

/-- `nearestTreePoint`. -/
def nearestTreePoint (paths : List (List Point)) (dst : Point) : Point :=
  (paths.flatten.foldl (nearer dst) (none, dst)).2

/-- The order of sinks: by column, then by row. -/
def sinkLe (a b : Point) : Prop := a.c < b.c ∨ (a.c = b.c ∧ a.r ≤ b.r)

instance : DecidableRel sinkLe := fun _ _ => inferInstanceAs (Decidable (_ ∨ _))

section Growth

variable (g : Grid)

/-- Rounds that are enough for every search on a grid. -/
def rounds : ℕ := 2 * (g.mgr.rows * g.mgr.cols) * (g.mgr.rows * g.mgr.cols) + 2

/-- One search of `addIOTree`: a branch is added if it succeeds. -/
def addBranch (rp : RoutingPath) (attach sink : Point) : Option (Bool × RoutingPath) :=
  (bfsSingle g rp.parent attach sink [] (rounds g)).map fun r =>
    if r.found then (true, { rp with paths := rp.paths ++ [r.out], parent := r.parent })
    else (false, { rp with parent := r.parent })

def addRest : List Point → RoutingPath → Option (Bool × RoutingPath)
  | [], rp => some (true, rp)
  | sink :: rest, rp =>
    (addBranch g rp (nearestTreePoint rp.paths sink) sink).bind fun r =>
      if r.1 then addRest rest r.2 else some r

/-- The searches of `addIOTree` for sorted sinks, and what it stores in the end. -/
def growTree (src : Point) : List Point → RoutingPath → Option (Bool × RoutingPath)
  | [], rp => some (false, rp)
  | sink :: rest, rp =>
    (addBranch g rp src sink).bind fun r =>
      if r.1 then
        (addRest g rest r.2).map fun r' =>
          if r'.1 then (true, { r'.2 with multipaths := ⟨some src, sink :: rest, r'.2.paths⟩ }) else r'
      else some r

/-- Where the flow of a `DataIO` starts: at the shim, or at the last tile. -/
def source (d : DataIO) (sinksIn : List Point) : Option Point :=
  match d.dmadir with
  | .mm2s => some d.shim
  | .s2mm => sinksIn.getLast?

/-- Where it ends: at the tiles, or at the shim. -/
def endpoints (d : DataIO) (sinksIn : List Point) : List Point :=
  match d.dmadir with
  | .mm2s => sinksIn
  | .s2mm => [d.shim]

/-- `addIOTree`. -/
def addIOTree (dio : Option DataIO) (sinksIn : List Point) (rp : RoutingPath) : Option (Bool × RoutingPath) :=
  match dio with
  | none => some (false, rp)
  | some d =>
    if sinksIn = [] then some (false, rp)
    else match source d sinksIn with
      | none => some (false, rp)
      | some src => growTree g src ((endpoints d sinksIn).insertionSort sinkLe) rp

end Growth

/-! ### Trees -/

/-- There is a route. -/
def Reaches (g : Grid) (a b : Point) : Prop := ∃ path, IsRoute g a b path

/-- The source of a flow has a route to every end. -/
def Routed (g : Grid) (d : DataIO) (sinksIn : List Point) : Prop :=
  ∃ src, source d sinksIn = some src ∧ ∀ e ∈ endpoints d sinksIn, Reaches g src e

/-- It has, and no branch can end where there is no way on: there is only one, or every tile that the source
reaches has routes to the ends too. -/
def Connectable (g : Grid) (d : DataIO) (sinksIn : List Point) : Prop :=
  Routed g d sinksIn ∧ ((endpoints d sinksIn).length = 1 ∨
    ∀ src p, source d sinksIn = some src → Reaches g src p → ∀ e ∈ endpoints d sinksIn, Reaches g p e)

/-- A tree that is grown branch by branch: each branch is a route without repetition from
the source, or from a point of the branches before it, to a sink. -/
inductive Grown (g : Grid) (src : Point) : List (List Point) → List Point → Prop
  | first {b : List Point} {sink : Point} : IsRoute g src sink b → b.Nodup → Grown g src [b] [sink]
  | branch {bs : List (List Point)} {sinks b : List Point} {a sink : Point} : Grown g src bs sinks →
      a ∈ bs.flatten → IsRoute g a sink b → b.Nodup → Grown g src (bs ++ [b]) (sinks ++ [sink])

section Trees

variable {g : Grid} {src : Point} {rp : RoutingPath}

/-- The nearest point is one of those compared, or the one that was nearest before. -/
theorem nearer_mem (dst : Point) : ∀ (ps : List Point) (s : Option ℕ × Point),
    (ps.foldl (nearer dst) s).2 = s.2 ∧ (s.1 = none → ps = []) ∨ (ps.foldl (nearer dst) s).2 ∈ ps := by
  intro ps
  induction ps with
  | nil => exact fun s => .inl ⟨rfl, fun _ => rfl⟩
  | cons p ps ih =>
    intro s
    rw [foldl_cons]
    have hnear : nearer dst s p = (some (manhattan p dst), p) ∨ (nearer dst s p = s ∧ s.1 ≠ none) := by
      obtain ⟨best, cand⟩ := s
      cases best with
      | none => exact .inl rfl
      | some best =>
        unfold nearer
        dsimp only
        split
        · exact .inl rfl
        · exact .inr ⟨rfl, some_ne_none best⟩
    rcases hnear with hp | ⟨hs, hne⟩
    · right
      rw [hp]
      rcases ih (some (manhattan p dst), p) with ⟨heq, _⟩ | hin
      · rw [heq]
        exact mem_cons_self
      · exact mem_cons_of_mem _ hin
    · rw [hs]
      rcases ih s with ⟨heq, _⟩ | hin
      · exact .inl ⟨heq, fun h => absurd h hne⟩
      · exact .inr (mem_cons_of_mem _ hin)

theorem nearestTreePoint_mem {paths : List (List Point)} (h : paths.flatten ≠ []) (dst : Point) :
    nearestTreePoint paths dst ∈ paths.flatten := by
  rcases nearer_mem dst paths.flatten (none, dst) with ⟨_, hnil⟩ | hin
  · exact absurd (hnil rfl) h
  · exact hin

theorem addBranch_spec (rp : RoutingPath) (attach sink : Point) :
    ∃ r, addBranch g rp attach sink = some r ∧ r.2.multipaths = rp.multipaths ∧
      (r.1 = true → ∃ b, r.2.paths = rp.paths ++ [b] ∧ IsRoute g attach sink b ∧ b.Nodup) ∧
      (Reaches g attach sink → r.1 = true) := by
  obtain ⟨r, hrun, hfound, hnone⟩ := bfsSingle_ends g rp.parent attach sink [] (Nat.lt_succ_self _)
  unfold addBranch rounds
  rw [hrun, map_some]
  refine ⟨_, rfl, ?_⟩
  cases hf : r.found with
  | false => exact ⟨rfl, nofun, fun ⟨path, hroute⟩ => absurd hroute (hnone hf path)⟩
  | true =>
    refine ⟨rfl, fun _ => ?_, fun _ => rfl⟩
    obtain ⟨path, hout, hroute, hnodup⟩ := hfound hf
    rw [reverse_nil, append_nil] at hout
    exact ⟨path, congrArg (fun b => rp.paths ++ [b]) hout, hroute, hnodup⟩

variable {bs : List (List Point)} {sinks : List Point}

theorem Grown.flatten_ne_nil (h : Grown g src bs sinks) :
    bs.flatten ≠ [] := by
  have hroute : ∀ {a sink : Point} {b : List Point}, IsRoute g a sink b → b ≠ [] := by
    rintro a sink b hb rfl
    exact nomatch hb.head
  induction h with
  | first hb _ =>
    rw [flatten_singleton]
    exact hroute hb
  | branch _ ha _ _ _ =>
    rw [flatten_append]
    exact append_ne_nil_of_left_ne_nil (ne_nil_of_mem ha) _

theorem reachable_of_mem {p : Point} :
    ∀ {path : List Point} {a : Point}, (a :: path).IsChain (Legal g) → p ∈ a :: path →
    Relation.ReflTransGen (Legal g) a p := by
  intro path
  induction path with
  | nil =>
    intro a _ hp
    obtain rfl := mem_singleton.1 hp
    exact .refl
  | cons b path ih =>
    intro a hchain hp
    obtain ⟨hstep, hrest⟩ := isChain_cons_cons.1 hchain
    rcases mem_cons.1 hp with rfl | hp
    · exact .refl
    · exact .head hstep (ih hrest hp)

theorem Grown.reachable (h : Grown g src bs sinks) :
    (inGrid g src = true ∧ g.wall src = false) ∧ ∀ p ∈ bs.flatten, Relation.ReflTransGen (Legal g) src p := by
  induction h with
  | first hb _ =>
    refine ⟨⟨hb.start_in, hb.start_open⟩, fun p hp => ?_⟩
    rw [flatten_singleton] at hp
    obtain ⟨rest, rfl⟩ := head?_eq_some_iff.1 hb.head
    exact reachable_of_mem hb.legal hp
  | branch _ ha hb _ ih =>
    refine ⟨ih.1, fun p hp => ?_⟩
    rw [flatten_append, flatten_singleton, mem_append] at hp
    rcases hp with hp | hp
    · exact ih.2 p hp
    · obtain ⟨rest, rfl⟩ := head?_eq_some_iff.1 hb.head
      exact (ih.2 _ ha).trans (reachable_of_mem hb.legal hp)

theorem Grown.route {p : Point} (h : Grown g src bs sinks) (hp : p ∈ bs.flatten) :
    Reaches g src p := by
  obtain ⟨⟨hin, hopen⟩, hreach⟩ := h.reachable
  obtain ⟨path, hchain, hlast⟩ := exists_isChain_cons_of_relationReflTransGen (hreach p hp)
  exact ⟨src :: path, rfl, hlast ▸ getLast?_eq_some_getLast (cons_ne_nil src path), hin, hopen, hchain⟩

/-- Sinks are joined to the tree one by one, each to its nearest point. -/
theorem addRest_spec : ∀ (rest : List Point) {rp : RoutingPath} {sinks : List Point},
    Grown g src rp.paths sinks →
    ∃ r, addRest g rest rp = some r ∧ r.2.multipaths = rp.multipaths ∧
      (r.1 = true → Grown g src r.2.paths (sinks ++ rest)) ∧
      ((∀ e ∈ rest, ∀ p, Reaches g src p → Reaches g p e) → r.1 = true) := by
  intro rest
  induction rest with
  | nil =>
    intro rp sinks h
    refine ⟨_, rfl, rfl, fun _ => ?_, fun _ => rfl⟩
    rw [append_nil]
    exact h
  | cons sink rest ih =>
    intro rp sinks h
    obtain ⟨r, hrun, hkeep, hadd, hreach⟩ := addBranch_spec (g := g) rp (nearestTreePoint rp.paths sink) sink
    have hattach := nearestTreePoint_mem h.flatten_ne_nil sink
    rw [addRest, hrun, bind_some]
    cases hr : r.1 with
    | false =>
      have hfalse : r.1 = true → False := fun h => absurd (hr.symm.trans h) Bool.false_ne_true
      refine ⟨r, rfl, hkeep, fun h => (hfalse h).elim, fun hall => (hfalse (hreach ?_)).elim⟩
      exact hall sink mem_cons_self _ (h.route hattach)
    | true =>
      obtain ⟨b, hpaths, hroute, hnodup⟩ := hadd hr
      have hgrown : Grown g src r.2.paths (sinks ++ [sink]) := by
        rw [hpaths]
        exact .branch h hattach hroute hnodup
      obtain ⟨r', hrun', hkeep', hgrown', hall'⟩ := ih hgrown
      rw [append_assoc] at hgrown'
      exact ⟨r', hrun', hkeep'.trans hkeep, hgrown', fun hall => hall' fun e he =>
        hall e (mem_cons_of_mem _ he)⟩

/-- What `addIOTree` may store: a tree for its source and its ends. -/
structure Stored (g : Grid) (d : DataIO) (sinksIn : List Point) (mp : MultiPath) : Prop where
  ends : mp.dsts.Perm (endpoints d sinksIn)
  tree : ∃ src, source d sinksIn = some src ∧ mp.src = some src ∧ Grown g src mp.branches mp.dsts

/-- **Storing.** `addIOTree` ends; it stores a tree that has all the ends when it returns
`true`, and nothing when it returns `false`. -/
theorem addIOTree_spec (d : DataIO) (sinksIn : List Point) :
    ∃ r, addIOTree g (some d) sinksIn .new = some r ∧
      (r.1 = true → Stored g d sinksIn r.2.multipaths) ∧
      (r.1 = false → r.2.multipaths = RoutingPath.new.multipaths) ∧
      (endpoints d sinksIn ≠ [] → Connectable g d sinksIn → r.1 = true) := by
  have hsort := perm_insertionSort sinkLe (endpoints d sinksIn)
  unfold addIOTree
  dsimp only
  split
  · rename_i hnil
    refine ⟨_, rfl, nofun, fun _ => rfl, fun hne hc => absurd hc.1 ?_⟩
    rintro ⟨src, hsrc, -⟩
    unfold source at hsrc
    unfold endpoints at hne
    cases hd : d.dmadir <;> simp_all
  cases hsrc : source d sinksIn with
  | none =>
    refine ⟨_, rfl, nofun, fun _ => rfl, ?_⟩
    rintro - ⟨⟨src, hsrc', -⟩, -⟩
    exact nomatch hsrc.symm.trans hsrc'
  | some src =>
    dsimp only
    have hroutes : Connectable g d sinksIn → ∀ e ∈ endpoints d sinksIn, Reaches g src e := by
      rintro ⟨⟨src', hsrc', hall⟩, -⟩
      obtain rfl := Option.some.inj (hsrc.symm.trans hsrc')
      exact hall
    cases hends : (endpoints d sinksIn).insertionSort sinkLe with
    | nil =>
      rw [hends] at hsort
      exact ⟨_, rfl, nofun, fun _ => rfl, fun hne => absurd hsort.symm.eq_nil hne⟩
    | cons sink rest =>
      rw [hends] at hsort
      have hmem : ∀ e ∈ sink :: rest, e ∈ endpoints d sinksIn := fun e he => hsort.mem_iff.1 he
      obtain ⟨r, hrun, hkeep, hadd, hreach⟩ := addBranch_spec (g := g) .new src sink
      rw [growTree, hrun, bind_some]
      cases hr : r.1 with
      | false =>
        have hfalse : r.1 = true → False := fun h => absurd (hr.symm.trans h) Bool.false_ne_true
        refine ⟨r, rfl, fun h => (hfalse h).elim, fun _ => hkeep, fun _ hc => (hfalse (hreach ?_)).elim⟩
        exact hroutes hc sink (hmem sink mem_cons_self)
      | true =>
        obtain ⟨b, hpaths, hroute, hnodup⟩ := hadd hr
        have hfirst : Grown g src r.2.paths [sink] := by
          rw [hpaths]
          exact .first hroute hnodup
        obtain ⟨r', hrun', hkeep', hgrown, hall⟩ := addRest_spec rest hfirst
        -- the rest is empty, or can be attached anywhere
        have hrest : Connectable g d sinksIn → ∀ e ∈ rest, ∀ p, Reaches g src p → Reaches g p e := by
          rintro ⟨-, hone | hways⟩ e he p hp
          · rw [← hsort.length_eq, length_cons] at hone
            exact absurd (length_pos_of_mem he) (by omega)
          · exact hways src p hsrc hp e (hmem e (mem_cons_of_mem _ he))
        rw [if_pos rfl, hrun', map_some]
        refine ⟨_, rfl, ?_⟩
        cases hr' : r'.1 with
        | false =>
          have hfalse : r'.1 = true → False := fun h => absurd (hr'.symm.trans h) Bool.false_ne_true
          exact ⟨fun h => (hfalse h).elim, fun _ => hkeep'.trans hkeep, fun _ hc =>
            (hfalse (hall (hrest hc))).elim⟩
        | true => exact ⟨fun _ => ⟨hsort, src, hsrc, rfl, hgrown hr'⟩, nofun, fun _ _ => rfl⟩

end Trees

end AieHlc.Route
