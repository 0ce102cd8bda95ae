import AieHlc.Packet.Stream

/-!
# The tail of a segment

A segment that holds a prefix and then the words `W` is cut at the end of the
prefix. If the first word of `W` starts an access of its own, what is left is
`W` encoded from reset. If it joined the last access of the prefix, what is left
begins with that word: finishing puts a header there only when `W` is that word
alone.

* `sealed_fresh`: the cut of a segment whose prefix ends an access.
* `Joined`: both encodings of a joined `W`, side by side.
* `Joined.single`, `Joined.length`, `Joined.head`, `Joined.last`: the cut of a
  joined segment.
-/

namespace AieHlc.Packet

open List AieHlc.Word

variable {α : Type} {cs : List (Chunk α)}

/-- The cut after a prefix that ends an access leaves `W` as encoded from reset. -/
theorem sealed_fresh {w : ℕ × α} (h : ∀ c ∈ cs.head?, ¬c.Takes w.1) (ws : List (ℕ × α)) :
    slots (sealLast (putWords cs (w :: ws))) = slots cs ++ slots (sealLast (putWords [] (w :: ws))) := by
  have hne : putWords [] (w :: ws) ≠ [] := putWords_ne_nil (putWord_ne_nil [] w) ws
  rw [putWords_fresh h, sealLast_append hne, slots_append]

theorem lastCtrl_append (h : cs ≠ []) (older : List (Chunk α)) :
    lastCtrl (cs ++ older) = (slots older).length + lastCtrl cs := by
  obtain ⟨c, cs, rfl⟩ := exists_cons_of_ne_nil h
  rw [cons_append, lastCtrl, lastCtrl, slots_append, length_append, add_assoc]

theorem sealLast_ne_nil (h : cs ≠ []) : sealLast cs ≠ [] := by
  obtain ⟨c, cs, rfl⟩ := exists_cons_of_ne_nil h
  rw [sealLast]
  split <;> exact cons_ne_nil _ _

theorem cpeWordsToBoundary_add {addr m : ℕ} (h : m < cpeWordsToBoundary addr) :
    cpeWordsToBoundary (addr + 4 * m) = cpeWordsToBoundary addr - m := by
  rw [cpeWordsToBoundary_eq] at h ⊢
  rw [cpeWordsToBoundary_eq]
  split at h <;> split <;> omega

/-- The two encodings of words with data `vals` whose first joins an access with data
`ds` at `addr`: `joined` after that access, `alone` from reset. They share all
accesses but the oldest, which takes the data `xs`. -/
structure Joined (addr : ℕ) (ds vals : List α) (joined alone news : List (Chunk α))
    (xs ys : List α) : Prop where
  joined_eq : joined = news ++ [⟨addr, 0, ds ++ xs⟩]
  alone_eq : alone = news ++ [⟨addr + 4 * ds.length, 0, xs⟩]
  vals_eq : vals = xs ++ ys
  ne : xs ≠ []
  news_iff : news = [] ↔ ys = []

/-- **Both encodings run side by side**: a word joins the one iff it joins the other. -/
theorem exists_joined (addr : ℕ) (ds : List α) (ws : List (ℕ × α)) : ∀ xs : List α, xs ≠ [] →
    ds.length + xs.length ≤ cpeWordsToBoundary addr →
    ∃ news xs' ys, Joined addr ds (xs ++ ws.map Prod.snd) (putWords [⟨addr, 0, ds ++ xs⟩] ws)
      (putWords [⟨addr + 4 * ds.length, 0, xs⟩] ws) news xs' ys := by
  induction ws with
  | nil => exact fun xs hne _ => ⟨[], xs, [], rfl, rfl, rfl, hne, iff_of_true rfl rfl⟩
  | cons w ws ih =>
    intro xs hne hblock
    have hpos : 1 ≤ xs.length := length_pos_iff.2 hne
    have hiff : (⟨addr, 0, ds ++ xs⟩ : Chunk α).Takes w.1 ↔
        (⟨addr + 4 * ds.length, 0, xs⟩ : Chunk α).Takes w.1 := by
      unfold Chunk.Takes
      dsimp only
      rw [cpeWordsToBoundary_add (by omega), length_append, mul_add, add_assoc]
      refine and_congr_right fun _ => ?_
      omega
    by_cases ht : (⟨addr, 0, ds ++ xs⟩ : Chunk α).Takes w.1
    · -- the word joins both
      have hlt := ht.2
      dsimp only at hlt
      rw [length_append] at hlt
      obtain ⟨news, xs', ys, J⟩ :=
        ih (xs ++ [w.2]) (by simp) (by rw [length_append, length_singleton]; omega)
      rw [putWords_cons, putWords_cons, putWord_joins ht, putWord_joins (hiff.1 ht)]
      simp only [Chunk.add, append_assoc, singleton_append, map_cons] at J ⊢
      exact ⟨news, xs', ys, J⟩
    · -- the word starts an access in both, and what follows never looks back
      have ht' := fun h => ht (hiff.2 h)
      have hone : ([.single w] : List (Chunk α)) ≠ [] := cons_ne_nil _ _
      rw [putWords_cons, putWords_cons, putWord_starts ht, putWord_starts ht']
      refine ⟨putWords [.single w] ws, xs, (w :: ws).map Prod.snd, putWords_append hone _ ws,
        putWords_append hone _ ws, rfl, hne, ?_⟩
      exact iff_of_false (putWords_ne_nil hone ws) (cons_ne_nil _ _)

section Cut

variable {addr : ℕ} {ds vals xs ys : List α} {joined alone news : List (Chunk α)}
  (J : Joined addr ds vals joined alone news xs ys) (hds : ds ≠ []) (op : ℕ) (older : List (Chunk α))

include J hds

/-- One word alone that joined the prefix is split off again by finishing. -/
theorem Joined.single (hone : vals.length = 1) :
    slots (sealLast (joined ++ older)) = slots (⟨addr, 0, ds⟩ :: older) ++ slots (sealLast alone) := by
  have hlen := congrArg List.length J.vals_eq
  have hxs : 1 ≤ xs.length := length_pos_iff.2 J.ne
  have hdl : 1 ≤ ds.length := length_pos_iff.2 hds
  rw [length_append, hone] at hlen
  have hys : ys = [] := length_eq_zero_iff.1 (by omega)
  obtain ⟨d, hd⟩ := length_eq_one_iff.1 (show xs.length = 1 by omega)
  have hjoined : joined = [⟨addr, 0, ds ++ [d]⟩] := by rw [J.joined_eq, J.news_iff.2 hys, hd]; rfl
  have halone : alone = [⟨addr + 4 * ds.length, 0, [d]⟩] := by rw [J.alone_eq, J.news_iff.2 hys, hd]; rfl
  have hmany : 1 < (ds ++ [d]).length := by rw [length_append, length_singleton]; omega
  rw [hjoined, halone, singleton_append, sealLast_split hmany, sealLast_single (by simp)]
  simp [slots, Chunk.slots, Chunk.front, Chunk.back]

/-- Of several words of which the first joined the prefix, the cut leaves that word in
front, and two words less than there are from reset. -/
theorem Joined.several (hmany : 1 < vals.length) : ∃ init d tail,
    slots (sealLast (joined ++ older)) = init ++ .data d :: tail ∧
      init.length = (slots (⟨addr, op, ds⟩ :: older)).length ∧ vals.head? = some d ∧
      tail.length + 3 = (slots (sealLast alone)).length ∧ init.length ≤ lastCtrl
        (sealLast (joined ++ older)) := by
  have hdl : 1 ≤ ds.length := length_pos_iff.2 hds
  obtain ⟨d, zs, hxs⟩ := exists_cons_of_ne_nil J.ne
  have hhead : vals.head? = some d := by rw [J.vals_eq, hxs]; rfl
  have hpre : (slots (⟨addr, op, ds⟩ :: older)).length = (slots older).length + (ds.length + 2) := by
    rw [slots, length_append, Chunk.slots_length]
  by_cases hys : ys = []
  · -- all words in the joined access: finishing splits off the last
    have hnews := J.news_iff.2 hys
    have hzs : 1 ≤ zs.length := by
      rw [J.vals_eq, hys, hxs, append_nil, length_cons] at hmany
      omega
    have hjoined : joined = [⟨addr, 0, ds ++ d :: zs⟩] := by rw [J.joined_eq, hnews, hxs]; rfl
    have halone : alone = [⟨addr + 4 * ds.length, 0, d :: zs⟩] := by rw [J.alone_eq, hnews, hxs]; rfl
    have hlen : (ds ++ d :: zs).length = ds.length + zs.length + 1 := by
      rw [length_append, length_cons]; omega
    have hlong : 1 < (ds ++ d :: zs).length := by omega
    have htake : (ds ++ d :: zs).take ((ds ++ d :: zs).length - 1) = ds ++ d :: zs.take (zs.length - 1) := by
      have hidx : (ds ++ d :: zs).length - 1 = ds.length + (zs.length - 1 + 1) := by omega
      rw [hidx, take_length_add_append, take_succ_cons]
    have hdrop : ((ds ++ d :: zs).drop ((ds ++ d :: zs).length - 1)).length = 1 := by
      rw [length_drop]; omega
    obtain ⟨e, he⟩ := length_eq_one_iff.1 hdrop
    refine ⟨slots older ++ .hdr :: .ctrl addr (ds ++ d :: zs.take (zs.length - 1)).length
      0 :: ds.map .data, d,
      (zs.take (zs.length - 1)).map .data ++
        [.hdr, .ctrl (addr + 4 * ((ds ++ d :: zs).length - 1)) 1 2, .data e], ?_, ?_, hhead, ?_, ?_⟩
    · rw [hjoined, singleton_append, sealLast_split hlong]
      simp only [slots, Chunk.slots, Chunk.front, Chunk.back, htake, he]
      simp
    · rw [hpre]
      simp
    · rw [halone, sealLast_split (by rw [length_cons]; omega)]
      simp only [slots, nil_append, length_append, Chunk.slots_length, Chunk.front_length, Chunk.back,
        length_drop, length_map, length_take, length_cons, length_nil]
      omega
    · rw [hjoined, singleton_append, sealLast_split hlong]
      simp only [lastCtrl, slots, length_append, Chunk.slots_length, Chunk.front_length, length_cons,
        length_map]
      omega
  · -- the joined access is closed by a later one
    have hne : news ≠ [] := fun h => hys (J.news_iff.1 h)
    have hjoined : joined ++ older = news ++ ⟨addr, 0, ds ++ d :: zs⟩ :: older := by
      rw [J.joined_eq, hxs, append_assoc]
      rfl
    have halone : alone = news ++ [⟨addr + 4 * ds.length, 0, d :: zs⟩] := by rw [J.alone_eq, hxs]
    refine ⟨slots older ++ .hdr :: .ctrl addr (ds ++ d :: zs).length 0 :: ds.map .data, d,
      zs.map .data ++ slots (sealLast news), ?_, ?_, hhead, ?_, ?_⟩
    · rw [hjoined, sealLast_append hne, slots_append, slots, Chunk.slots]
      simp
    · rw [hpre]
      simp
    · rw [halone, sealLast_append hne, slots_append]
      simp only [slots, nil_append, length_append, Chunk.slots_length, length_map, length_cons]
      omega
    · rw [hjoined, sealLast_append hne, lastCtrl_append (sealLast_ne_nil hne)]
      simp only [slots, length_append, Chunk.slots_length, length_cons, length_map]
      omega

end Cut

/-- What joins an access after `c`, when its first word joins `c`. -/
theorem exists_joined_of_takes {c : Chunk α} (hv : c.Valid) {w : ℕ × α} (ht : c.Takes w.1)
    (older : List (Chunk α))
    (ws : List (ℕ × α)) : ∃ joined news xs ys, putWords (c :: older) (w :: ws) = joined ++ older ∧
      Joined c.addr c.data ((w :: ws).map Prod.snd) joined (putWords [] (w :: ws)) news xs ys := by
  have hoff := ht.off_eq hv
  have hlt := ht.2
  have hend := (hv.add ht w.2).end_lt
  rw [Chunk.add, length_append, length_singleton, Nat.add_sub_cancel] at hend
  have hsingle : Chunk.single w = ⟨c.addr + 4 * c.data.length, 0, [w.2]⟩ := by
    rw [Chunk.single, hoff, Nat.mod_eq_of_lt hend]
  obtain ⟨news, xs, ys, J⟩ := exists_joined c.addr c.data ws [w.2] (cons_ne_nil _ _)
    (by rw [length_singleton]; omega)
  refine ⟨putWords [c.add w.2] ws, news, xs, ys, ?_, ?_⟩
  · rw [putWords_cons, putWord_joins ht]
    exact putWords_append (cons_ne_nil (c.add w.2) []) older ws
  · rw [putWords_cons, putWord, hsingle]
    exact J

theorem slots_alone_le (hv : ∀ c ∈ cs, c.Valid) (ws : List (ℕ × α)) :
    (slots (putWords [] ws)).length ≤ (slots (putWords cs ws)).length := by
  cases ws with
  | nil => exact Nat.zero_le _
  | cons w ws =>
    cases cs with
    | nil => exact le_rfl
    | cons c older =>
      by_cases ht : c.Takes w.1
      · obtain ⟨joined, news, xs, ys, hput, J⟩ := exists_joined_of_takes (hv c mem_cons_self) ht older ws
        rw [hput, J.joined_eq, J.alone_eq, slots_append, slots_append, slots_append, length_append,
          length_append, length_append]
        simp only [slots, nil_append, Chunk.slots_length, length_append]
        omega
      · have hfresh : ∀ b ∈ (c :: older).head?, ¬b.Takes w.1 := by
          intro b hb
          cases hb
          exact ht
        rw [putWords_fresh hfresh, slots_append, length_append]
        exact Nat.le_add_left _ _

theorem fits_alone {cap : ℕ} (hv : ∀ c ∈ cs, c.Valid) {ws : List (ℕ × α)}
    (h : Fits cap cs ws) : Fits cap [] ws := by
  rw [fits_iff] at h ⊢
  intro n hn
  have h1 := slots_alone_le hv (ws.take n)
  have h2 := h n hn
  omega

end AieHlc.Packet
