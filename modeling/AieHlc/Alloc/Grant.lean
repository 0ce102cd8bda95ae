import Mathlib.Data.List.Nodup
import Mathlib.Data.Set.Insert

/-!
# Grants of an allocator

A state holds a set of keys. A run of requests turns it into another state and hands out a list of
keys; an allocator is sound when what it hands out was not held before, is held afterwards, and is
not handed out twice.

* `Grants`: the keys a run hands out.
* `Grants.trans`: runs one after the other hand out the keys of both.
-/

namespace AieHlc.Alloc

open List

variable {σ κ : Type*} {held : σ → Set κ} {s s' s'' : σ} {ks ls : List κ}

/-- From `s` to `s'` the keys `ks` are handed out. -/
structure Grants (held : σ → Set κ) (s s' : σ) (ks : List κ) : Prop where
  keep : held s ⊆ held s'
  fresh : ∀ k ∈ ks, k ∉ held s
  taken : ∀ k ∈ ks, k ∈ held s'
  nodup : ks.Nodup

theorem Grants.none (h : held s ⊆ held s') : Grants held s s' [] := by
  refine ⟨h, ?_, ?_, nodup_nil⟩
  · intro k hk
    cases hk
  · intro k hk
    cases hk

theorem Grants.one {k : κ} (hs : k ∉ held s) (hs' : held s' = insert k (held s)) : Grants held s s' [k] := by
  refine ⟨?_, ?_, ?_, nodup_singleton k⟩
  · rw [hs']
    exact Set.subset_insert k _
  · intro l hl
    rw [mem_singleton.1 hl]
    exact hs
  · intro l hl
    rw [mem_singleton.1 hl, hs']
    exact Set.mem_insert k _

/-- **Runs compose**: a key of the second run was not held when it began, so it is none of the first run's. -/
theorem Grants.trans (h : Grants held s s' ks) (h' : Grants held s' s'' ls) :
    Grants held s s'' (ks ++ ls) := by
  refine ⟨h.keep.trans h'.keep, ?_, ?_, ?_⟩
  · intro k hk hheld
    rcases mem_append.1 hk with hk | hk
    · exact h.fresh k hk hheld
    · exact h'.fresh k hk (h.keep hheld)
  · intro k hk
    rcases mem_append.1 hk with hk | hk
    · exact h'.keep (h.taken k hk)
    · exact h'.taken k hk
  · apply h.nodup.append h'.nodup
    intro k hk hl
    exact h'.fresh k hl (h.taken k hk)

/-- Keys may be handed out and dropped. -/
theorem Grants.sublist (h : Grants held s s' ks) (hl : ls.Sublist ks) : Grants held s s' ls :=
  ⟨h.keep, fun k hk => h.fresh k (hl.subset hk), fun k hk => h.taken k (hl.subset hk), h.nodup.sublist hl⟩

end AieHlc.Alloc
