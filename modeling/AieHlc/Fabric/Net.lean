import Mathlib.Algebra.BigOperators.Group.List.Basic
import Mathlib.Algebra.Order.BigOperators.Group.List
import Mathlib.Data.List.Count

/-!
# Forwarding networks

A packet in a network sits at a place; `next` says where the network copies it
from there: on to another place, or out through a sink. `flow n p` collects the
sinks reached by every copy of a packet that starts at `p`, or is `none` when
some copy is still travelling after `n` hops. So a packet that circulates has no
flow at any fuel.

* `Arrives next p f`: from some fuel on the flow exists and reaches every sink
  `s` exactly `f s` times. In particular no copy circulates.
* `Arrives.step`: the arrivals at a place are the sum of those of its hops.
-/

namespace AieHlc.Fabric

/-- One copy of a packet made at a place: to another place or out of the network. -/
inductive Hop (P S : Type*) where
  | fwd (p : P)
  | out (s : S)
  deriving DecidableEq

variable {P S : Type*}

/-- The sinks reached through one hop, when `go` says what a place reaches. -/
def Hop.sinks (go : P → Option (List S)) : Hop P S → Option (List S)
  | .fwd q => go q
  | .out s => some [s]

/-- The sinks reached from `p` by every copy, if all of them leave within `n` hops. -/
def flow (next : P → List (Hop P S)) : ℕ → P → Option (List S)
  | 0, _ => none
  | n + 1, p => ((next p).mapM (Hop.sinks (flow next n))).map List.flatten

variable [DecidableEq S] {next : P → List (Hop P S)}

/-- From some fuel on, the flow from `p` exists and reaches each sink `s` exactly
`f s` times. -/
def Arrives (next : P → List (Hop P S)) (p : P) (f : S → ℕ) : Prop :=
  ∃ n, ∀ m, n ≤ m → ∃ l, flow next m p = some l ∧ ∀ s, l.count s = f s

/-- The same for one hop. -/
def HopArrives (next : P → List (Hop P S)) (h : Hop P S) (f : S → ℕ) : Prop :=
  match h with
  | .fwd q => Arrives next q f
  | .out s => ∀ x, f x = if x = s then 1 else 0

/-- The arrivals of a list of hops: those of each hop, added up. -/
def HopsArrive (next : P → List (Hop P S)) : List (Hop P S) → (S → ℕ) → Prop
  | [], f => ∀ s, f s = 0
  | h :: hs, f => ∃ g g', HopArrives next h g ∧ HopsArrive next hs g' ∧ ∀ s, f s = g s + g' s

variable {f : S → ℕ}

theorem HopArrives.sinks {h : Hop P S} (hh : HopArrives next h f) :
    ∃ n, ∀ m, n ≤ m → ∃ l, h.sinks (flow next m) = some l ∧ ∀ s, l.count s = f s := by
  cases h with
  | fwd q => exact hh
  | out s =>
    refine ⟨0, fun m _ => ⟨[s], rfl, fun x => ?_⟩⟩
    rw [hh x, List.count_singleton]
    by_cases hx : x = s
    · simp [hx]
    · simp [hx, Ne.symm hx]

theorem HopsArrive.sinks : ∀ {hs : List (Hop P S)} {f : S → ℕ}, HopsArrive next hs f →
    ∃ n, ∀ m, n ≤ m → ∃ ls, hs.mapM (Hop.sinks (flow next m)) = some ls ∧
      ∀ s, ls.flatten.count s = f s := by
  intro hs
  induction hs with
  | nil =>
    intro f hf
    exact ⟨0, fun m _ => ⟨[], rfl, fun s => (hf s).symm⟩⟩
  | cons h hs ih =>
    rintro f ⟨g, g', hg, hg', hf⟩
    obtain ⟨n1, h1⟩ := hg.sinks
    obtain ⟨n2, h2⟩ := ih hg'
    refine ⟨max n1 n2, fun m hm => ?_⟩
    obtain ⟨l, hl, hcl⟩ := h1 m (le_trans (le_max_left _ _) hm)
    obtain ⟨ls, hls, hc⟩ := h2 m (le_trans (le_max_right _ _) hm)
    refine ⟨l :: ls, by simp [List.mapM_cons, hl, hls], fun s => ?_⟩
    rw [List.flatten_cons, List.count_append, hcl, hc, hf]

/-- **Arrivals add up over the hops of a place.** -/
theorem Arrives.step {p : P} {hs : List (Hop P S)} (hp : next p = hs)
    (hf : HopsArrive next hs f) : Arrives next p f := by
  subst hp
  obtain ⟨n, hn⟩ := hf.sinks
  refine ⟨n + 1, fun m hm => ?_⟩
  obtain ⟨k, rfl⟩ : ∃ k, m = k + 1 := ⟨m - 1, by omega⟩
  obtain ⟨ls, hls, hc⟩ := hn k (by omega)
  exact ⟨ls.flatten, by rw [flow, hls]; rfl, hc⟩

theorem HopsArrive.congr {hs : List (Hop P S)} {f g : S → ℕ} (h : HopsArrive next hs f)
    (hfg : ∀ s, f s = g s) : HopsArrive next hs g := by
  rwa [← funext hfg]

theorem HopArrives.single {h : Hop P S} (hh : HopArrives next h f) :
    HopsArrive next [h] f :=
  ⟨f, fun _ => 0, hh, fun _ => rfl, fun _ => rfl⟩

theorem HopsArrive.append {hs' : List (Hop P S)} {g : S → ℕ} (hg : HopsArrive next hs' g) :
    ∀ {hs : List (Hop P S)} {f : S → ℕ}, HopsArrive next hs f →
      HopsArrive next (hs ++ hs') fun s => f s + g s := by
  intro hs
  induction hs with
  | nil => intro f hf; exact hg.congr fun s => by rw [hf s, zero_add]
  | cons h hs ih =>
    rintro f ⟨k, k', hk, hk', hf⟩
    refine ⟨k, fun s => k' s + g s, hk, ih hk', fun s => ?_⟩
    simp only [hf s]
    omega

theorem HopsArrive.insert {h : Hop P S} {g : S → ℕ} (hg : HopArrives next h g) {hs' : List (Hop P S)} :
    ∀ {hs : List (Hop P S)} {f : S → ℕ}, HopsArrive next (hs ++ hs') f →
      HopsArrive next (hs ++ h :: hs') fun s => f s + g s := by
  intro hs
  induction hs with
  | nil => intro f hf; exact ⟨g, f, hg, hf, fun s => add_comm _ _⟩
  | cons a hs ih =>
    rintro f ⟨k, k', hk, hk', hf⟩
    refine ⟨k, fun s => k' s + g s, hk, ih hk', fun s => ?_⟩
    simp only [hf s]
    omega

theorem HopArrives.ite {h : Hop P S} {c : Prop} [Decidable c] (hh : c → HopArrives next h f) :
    HopsArrive next (if c then [h] else []) fun s => if c then f s else 0 := by
  by_cases hc : c
  · simpa [hc] using (hh hc).single
  · simp [hc, HopsArrive]

/-- A place with a single hop passes on what the next place receives. -/
theorem Arrives.pass {p q : P} (hp : next p = [.fwd q]) (hq : Arrives next q f) :
    Arrives next p f :=
  Arrives.step hp (HopArrives.single (h := .fwd q) hq)

end AieHlc.Fabric
