import AieHlc.Packet.Suffix

/-!
# Changing a data word in place

A word of an encoded segment can be changed after the fact, at the position noted when
it was written: the access structure depends on the offsets alone. Finishing moves the
last word of an access of several words, so the note stays right for every word but that
one.

* `Alike`: two segments of the same shape.
* `Swapped`: two segments that differ in one data word.
* `modify_word`: changing the word at its noted position is encoding the changed word.
-/

namespace AieHlc.Packet

open List AieHlc.Word

section Shape

variable {α : Type}

/-- Same addresses and lengths, access by access. -/
def Alike (cs ds : List (Chunk α)) : Prop :=
  List.Forall₂ (fun c d => c.addr = d.addr ∧ c.data.length = d.data.length) cs ds

theorem Alike.refl (cs : List (Chunk α)) : Alike cs cs := by
  unfold Alike
  induction cs with
  | nil => exact .nil
  | cons c cs ih => exact .cons ⟨rfl, rfl⟩ ih

theorem takes_congr {c d : Chunk α} (h : c.addr = d.addr ∧ c.data.length = d.data.length) (off : ℕ) :
    c.Takes off ↔ d.Takes off := by
  unfold Chunk.Takes
  rw [h.1, h.2]

variable {cs ds : List (Chunk α)}

theorem Alike.putWord (h : Alike cs ds) {v w : ℕ × α} (hoff : v.1 = w.1) :
    Alike (putWord cs v) (putWord ds w) := by
  have hsingle : (Chunk.single v).addr = (Chunk.single w).addr ∧
      (Chunk.single v).data.length = (Chunk.single w).data.length := by
    constructor
    · show v.1 % 2 ^ 20 = w.1 % 2 ^ 20
      rw [hoff]
    · rfl
  cases h with
  | nil => exact .cons hsingle .nil
  | @cons c d cs ds hcd hrest =>
    by_cases ht : c.Takes v.1
    · have ht' : d.Takes w.1 := hoff ▸ (takes_congr hcd v.1).1 ht
      rw [putWord_joins ht, putWord_joins ht']
      refine .cons ⟨hcd.1, ?_⟩ hrest
      rw [Chunk.add, Chunk.add, length_append, length_append, hcd.2]
      rfl
    · have ht' : ¬d.Takes w.1 := fun h => ht ((takes_congr hcd v.1).2 (hoff ▸ h))
      rw [putWord_starts ht, putWord_starts ht']
      exact .cons hsingle (.cons hcd hrest)

theorem Alike.putWords (h : Alike cs ds) {vs ws : List (ℕ × α)}
    (hoff : vs.map Prod.fst = ws.map Prod.fst) : Alike (putWords cs vs) (putWords ds ws) := by
  induction vs generalizing cs ds ws with
  | nil =>
    cases ws with
    | nil => exact h
    | cons w ws => cases hoff
  | cons v vs ih =>
    cases ws with
    | nil => cases hoff
    | cons w ws =>
      obtain ⟨h1, h2⟩ := cons.inj hoff
      exact ih (h.putWord h1) h2

theorem Alike.sealLast (h : Alike cs ds) : Alike (sealLast cs) (sealLast ds) := by
  cases h with
  | nil => exact .nil
  | @cons c d cs ds hcd hrest =>
    have hback : c.back.addr = d.back.addr ∧ c.back.data.length = d.back.data.length := by
      rw [Chunk.back, Chunk.back, length_drop, length_drop, hcd.1, hcd.2]
      exact ⟨rfl, rfl⟩
    by_cases hlen : 1 < c.data.length
    · rw [sealLast_split hlen, sealLast_split (hcd.2 ▸ hlen)]
      refine .cons hback (.cons ⟨hcd.1, ?_⟩ hrest)
      rw [c.front_length, d.front_length, hcd.2]
    · rw [sealLast_single hlen, sealLast_single (hcd.2 ▸ hlen)]
      exact .cons hback hrest

theorem Alike.slots_length (h : Alike cs ds) : (slots cs).length = (slots ds).length := by
  induction h with
  | nil => rfl
  | @cons c d cs ds hcd _ ih =>
    rw [slots, slots, length_append, length_append, c.slots_length, d.slots_length, ih, hcd.2]

theorem Alike.lastCtrl_eq (h : Alike cs ds) : lastCtrl cs = lastCtrl ds := by
  cases h with
  | nil => rfl
  | cons _ hrest => rw [lastCtrl, lastCtrl, Alike.slots_length hrest]

theorem slots_lt_putWord (cs : List (Chunk α)) (w : ℕ × α) :
    (slots cs).length < (slots (putWord cs w)).length := by
  cases cs with
  | nil => exact Nat.succ_pos _
  | cons c cs =>
    by_cases ht : c.Takes w.1
    · rw [putWord_joins ht, slots, slots, length_append, length_append, c.slots_length, Chunk.slots_length,
        Chunk.add, length_append, length_singleton]
      omega
    · have hslots : slots (.single w :: c :: cs) = slots (c :: cs) ++ (Chunk.single w).slots := rfl
      rw [putWord_starts ht, hslots, length_append, Chunk.slots_length]
      omega

theorem slots_le_putWords (cs : List (Chunk α)) (ws : List (ℕ × α)) :
    (slots cs).length ≤ (slots (putWords cs ws)).length := by
  induction ws generalizing cs with
  | nil => exact le_rfl
  | cons w ws ih => exact le_trans (slots_lt_putWord cs w).le (ih (putWord cs w))

end Shape

/-! ### One word changed -/

section Swap

variable {α : Type} {older cs cs' : List (Chunk α)} {a : ℕ} {ds : List α} {v v' : α}

/-- The two segments differ in one data word, `v` against `v'`: in the access at `a` that
follows `older`, after the words `ds`. -/
def Swapped (older : List (Chunk α)) (a : ℕ) (ds : List α) (v v' : α) (cs cs' : List (Chunk α)) : Prop :=
  ∃ news op es, cs = news ++ ⟨a, op, ds ++ v :: es⟩ :: older ∧ cs' = news ++ ⟨a, op, ds ++ v' :: es⟩ :: older

theorem Swapped.put (h : Swapped older a ds v v' cs cs') (w : ℕ × α) :
    Swapped older a ds v v' (putWord cs w) (putWord cs' w) := by
  obtain ⟨news, op, es, rfl, rfl⟩ := h
  have hlen : (ds ++ v :: es).length = (ds ++ v' :: es).length := by
    rw [length_append, length_append, length_cons, length_cons]
  cases news with
  | nil =>
    have hiff := takes_congr (c := ⟨a, op, ds ++ v :: es⟩) (d := ⟨a, op, ds ++ v' :: es⟩) ⟨rfl, hlen⟩ w.1
    by_cases ht : (⟨a, op, ds ++ v :: es⟩ : Chunk α).Takes w.1
    · refine ⟨[], 0, es ++ [w.2], ?_, ?_⟩
      · rw [nil_append, putWord_joins ht, Chunk.add, append_assoc]
        rfl
      · rw [nil_append, putWord_joins (hiff.1 ht), Chunk.add, append_assoc]
        rfl
    · refine ⟨[.single w], op, es, ?_, ?_⟩
      · rw [nil_append, putWord_starts ht]
        rfl
      · rw [nil_append, putWord_starts fun h => ht (hiff.2 h)]
        rfl
  | cons c news =>
    exact ⟨putWord (c :: news) w, op, es, putWord_append (cons_ne_nil c news) _ w,
      putWord_append (cons_ne_nil c news) _ w⟩

theorem Swapped.puts (h : Swapped older a ds v v' cs cs') (ws : List (ℕ × α)) :
    Swapped older a ds v v' (putWords cs ws) (putWords cs' ws) := by
  induction ws generalizing cs cs' with
  | nil => exact h
  | cons w ws ih => exact ih (h.put w)

/-- Finishing keeps the word where it is, unless it is the last of an access of several. -/
theorem Swapped.sealed (h : Swapped older a ds v v' cs cs')
    (hlast : (slots older).length + ds.length + 3 < (slots cs).length ∨ ds = []) :
    Swapped older a ds v v' (sealLast cs) (sealLast cs') := by
  obtain ⟨news, op, es, rfl, rfl⟩ := h
  cases news with
  | cons c news =>
    exact ⟨sealLast (c :: news), op, es, sealLast_append (cons_ne_nil c news) _,
      sealLast_append (cons_ne_nil c news) _⟩
  | nil =>
    rcases eq_nil_or_concat' es with rfl | ⟨es, e, rfl⟩
    · -- the word is alone in its access
      have hds : ds = [] := by
        refine hlast.resolve_left ?_
        rw [nil_append, slots, length_append, Chunk.slots_length, length_append,
          length_singleton]
        omega
      subst hds
      exact ⟨[], 2, [], rfl, rfl⟩
    · have hfront : ∀ u : α, (ds ++ u :: (es ++ [e])).take ((ds ++ u :: (es ++ [e])).length - 1) =
          ds ++ u :: es := by
        intro u
        rw [← cons_append, ← append_assoc, length_append, length_singleton, Nat.add_sub_cancel]
        exact take_left' rfl
      have hback : ∀ u : α, (ds ++ u :: (es ++ [e])).drop ((ds ++ u :: (es ++ [e])).length - 1) = [e] := by
        intro u
        rw [← cons_append, ← append_assoc, length_append, length_singleton, Nat.add_sub_cancel]
        exact drop_left' rfl
      have hlen : ∀ u : α, (ds ++ u :: (es ++ [e])).length = ds.length + es.length + 2 := by
        intro u
        rw [length_append, length_cons, length_append, length_singleton]
        omega
      have hseal : ∀ u : α, sealLast (⟨a, op, ds ++ u :: (es ++ [e])⟩ :: older) =
          [⟨a + 4 * (ds.length + es.length + 1), 2, [e]⟩] ++ ⟨a, 0, ds ++ u :: es⟩ :: older := by
        intro u
        rw [sealLast_split (by rw [hlen]; omega), Chunk.back, Chunk.front]
        dsimp only
        rw [hfront, hback, hlen]
        rfl
      exact ⟨_, 0, es, hseal v, hseal v'⟩

theorem modify_middle (l l' : List α) (u : α) (f : α → α) :
    (l ++ u :: l').modify l.length f = l ++ f u :: l' := by
  rw [modify_eq_take_drop, take_left' rfl, drop_left' rfl]
  rfl

theorem Swapped.modify {older cs cs' : List (Chunk ℕ)} {ds : List ℕ} {v : ℕ} (f : ℕ → ℕ)
    (h : Swapped older a ds v (f v) cs cs') (hdr : ℕ) :
    (wordsOf hdr cs).modify ((slots older).length + ds.length + 2) f = wordsOf hdr cs' := by
  obtain ⟨news, op, es, rfl, rfl⟩ := h
  have hctrl : (⟨a, op, ds ++ f v :: es⟩ : Chunk ℕ).ctrl = (⟨a, op, ds ++ v :: es⟩ : Chunk ℕ).ctrl := by
    rw [Chunk.ctrl, Chunk.ctrl, length_append, length_append]
    rfl
  have hsplit : ∀ u : ℕ, wordsOf hdr (news ++ ⟨a, op, ds ++ u :: es⟩ :: older) =
      (wordsOf hdr older ++ hdr :: (⟨a, op, ds ++ u :: es⟩ : Chunk ℕ).ctrl :: ds) ++
        u :: (es ++ wordsOf hdr news) := by
    intro u
    rw [wordsOf_append, wordsOf_cons]
    simp only [append_assoc, cons_append]
  have hidx : (slots older).length + ds.length + 2 =
      (wordsOf hdr older ++ hdr :: (⟨a, op, ds ++ v :: es⟩ : Chunk ℕ).ctrl :: ds).length := by
    rw [length_append, wordsOf_length, length_cons, length_cons]
    omega
  rw [hsplit v, hsplit (f v), hctrl, hidx, modify_middle]

/-- A write of another value differs in one word, at a known place. -/
theorem swapped_putWord (cs : List (Chunk α)) (off : ℕ) (v v' : α) :
    ∃ older a ds, Swapped older a ds v v' (putWord cs (off, v)) (putWord cs (off, v')) ∧
      (slots (putWord cs (off, v))).length = (slots older).length + ds.length + 3 ∧
        ((∀ c ∈ cs.head?, ¬c.Takes off) → ds = []) := by
  cases cs with
  | nil => exact ⟨[], off % 2 ^ 20, [], ⟨[], 0, [], rfl, rfl⟩, rfl, fun _ => rfl⟩
  | cons c cs =>
    by_cases ht : c.Takes off
    · have hv : putWord (c :: cs) (off, v) = c.add v :: cs := putWord_joins ht cs
      have hv' : putWord (c :: cs) (off, v') = c.add v' :: cs := putWord_joins ht cs
      refine ⟨cs, c.addr, c.data, ⟨[], 0, [], hv, hv'⟩, ?_, fun h => absurd ht (h c rfl)⟩
      rw [hv, slots, length_append, Chunk.slots_length, Chunk.add, length_append, length_singleton]
      omega
    · have hv : putWord (c :: cs) (off, v) = .single (off, v) :: c :: cs := putWord_starts ht cs
      have hv' : putWord (c :: cs) (off, v') = .single (off, v') :: c :: cs := putWord_starts ht cs
      refine ⟨c :: cs, off % 2 ^ 20, [], ⟨[], 0, [], hv, hv'⟩, ?_, fun _ => rfl⟩
      rw [hv, slots, length_append, Chunk.slots_length]
      rfl

end Swap

/-! ### At its noted position -/

theorem Chunk.Valid.not_takes {α : Type} {c : Chunk α} (hv : c.Valid) {off : ℕ} (hoff : off % 16 = 0) :
    ¬c.Takes off := by
  intro ht
  have heq := ht.off_eq hv
  have hlt := ht.2
  have hpos := hv.pos
  rw [cpeWordsToBoundary_eq] at hlt
  split at hlt <;> omega

/-- **A changed word**: changing word `i` where it was written is encoding the changed
word, if it is not the last or starts a block. -/
theorem modify_word {hdr : ℕ} {cs : List (Chunk ℕ)} (hv : ∀ c ∈ cs, c.Valid) (f : ℕ → ℕ)
    {ws : List (ℕ × ℕ)} {i : ℕ}
    (hi : i < ws.length) (hlast : i + 1 < ws.length ∨ (ws.get ⟨i, hi⟩).1 % 16 = 0) :
    (wordsOf hdr (sealLast (putWords cs ws))).modify ((slots (putWords cs (ws.take (i + 1)))).length - 1) f =
      wordsOf hdr (sealLast (putWords cs (ws.modify i fun w => (w.1, f w.2)))) := by
  obtain ⟨l, w, l', hws, hl, hmod⟩ := exists_of_modify (fun w : ℕ × ℕ => (w.1, f w.2)) hi
  subst hl
  have hget : ws.get ⟨l.length, hi⟩ = w := by simp [hws]
  have htake : ws.take (l.length + 1) = l ++ [w] := by
    rw [hws, append_cons]
    exact take_left' (by simp)
  have hput : ∀ u : ℕ × ℕ, putWords cs (l ++ u :: l') = putWords (putWord (putWords cs l) u) l' :=
    fun u => putWords_split cs l (u :: l')
  have hlv := putWords_valid hv l
  obtain ⟨older, a, ds, hsw, hlen, hds⟩ := swapped_putWord (putWords cs l) w.1 w.2 (f w.2)
  have hsealed := (hsw.puts l').sealed ?_
  · have hpos : (slots (putWord (putWords cs l) w)).length - 1 = (slots older).length + ds.length + 2 := by
      rw [hlen]
      rfl
    rw [htake, putWords_concat, hpos, hmod, hput, hws, hput]
    exact hsealed.modify f hdr
  · rcases hlast with hlast | hlast
    · -- more words follow, so finishing does not touch this one
      left
      rw [← hlen]
      cases l' with
      | nil => simp [hws] at hlast
      | cons w' l' => exact lt_of_lt_of_le (slots_lt_putWord _ w') (slots_le_putWords _ l')
    · right
      apply hds
      intro c hc
      rw [hget] at hlast
      exact (hlv c (mem_of_mem_head? hc)).not_takes hlast

end AieHlc.Packet
