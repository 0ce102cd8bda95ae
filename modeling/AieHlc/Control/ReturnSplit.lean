import AieHlc.Memory.Writes
import Mathlib.Data.List.Nodup
import Mathlib.Data.List.Perm.Subperm
import Mathlib.Data.Nat.Bitwise

/-!
# Return writes by broadcast

The register writes that set the return route up are split: those to an offset that every
tile of the fabric receives exactly once, with one value, are broadcast, the others are
carried out one by one. Model of `cpe_ret_uniform` and `rt_cpe_ret_split`
(`aie_ctrlpkt_encode.c`) with their users in `aie_runtime.c`.

* `cpeRetUniform`: the scan of the rest of the list, with its bitmap of tiles.
* `rtCpeRetSplit`: the loop over the writes, which decides an offset where it first occurs.
* `uniform_sound`: a scan that succeeds has met every tile, by counting.
* `split_spec`: **the state of every write after the loop**, in closed form.
* `ret_split_preserves`: broadcast and the writes left over do what all writes do.
-/

namespace AieHlc.Control

open List AieHlc.Memory

variable {w : RetWr} {r : Reg}

/-! ### The split -/

/-- `RT_CPE_WR_UNDECIDED`, `RT_CPE_WR_BCAST`, `RT_CPE_WR_MMIO`. -/
inductive WrState where
  | undecided
  | bcast
  | mmio
  deriving DecidableEq, Repr

/-- `rt_cpe_wr`. -/
structure RetWr where
  col : ℕ
  row : ℕ
  off : ℕ
  val : ℕ
  state : WrState
  deriving DecidableEq, Repr

def RetWr.tile (w : RetWr) : ℕ × ℕ := (w.col, w.row)

def CPE_RET_MAX_ROWS : ℕ := 16
def CPE_RET_MAX_COLS : ℕ := 64

/-- The loop of `cpe_ret_uniform` for the write `a`: the number of writes to its offset,
unless one has another value or a tile is met twice. -/
def uniformLoop (a : RetWr) : List RetWr → (ℕ → ℕ) → ℕ → Option ℕ
  | [], _, hits => some hits
  | b :: bs, seen, hits =>
    if b.off ≠ a.off then uniformLoop a bs seen hits
    else if b.val ≠ a.val ∨ b.row > CPE_RET_MAX_ROWS ∨ b.col ≥ CPE_RET_MAX_COLS ∨
        (seen b.row >>> b.col) &&& 1 ≠ 0 then none
    else uniformLoop a bs (Function.update seen b.row (seen b.row ||| (1 <<< b.col))) (hits + 1)

/-- `cpe_ret_uniform` on the writes from `a` on. -/
def cpeRetUniform (a : RetWr) (bs : List RetWr) (ntiles : ℕ) : Bool :=
  uniformLoop a bs (fun _ => 0) 0 = some ntiles

/-- What `rt_cpe_ret_split` has written: the states, and the broadcast registers. -/
structure Split where
  wr : List RetWr
  bc : List (ℕ × ℕ)

/-- Give the writes to an offset a state, from index `i` on. -/
def markFrom (i off : ℕ) (kind : WrState) (wr : List RetWr) : List RetWr :=
  wr.mapIdx fun j b => if i ≤ j ∧ b.off = off then { b with state := kind } else b

/-- One round of `rt_cpe_ret_split`, at index `i`. -/
def splitStep (ntiles max : ℕ) (s : Split) (i : ℕ) : Split :=
  match s.wr[i]? with
  | none => s
  | some a =>
    if a.state ≠ .undecided then s
    else if s.bc.length < max ∧ cpeRetUniform a (s.wr.drop i) ntiles = true then
      ⟨markFrom i a.off .bcast s.wr, s.bc ++ [(a.off, a.val)]⟩
    else ⟨markFrom i a.off .mmio s.wr, s.bc⟩

/-- `rt_cpe_ret_split`. -/
def rtCpeRetSplit (wr : List RetWr) (ntiles max : ℕ) : Split :=
  (range wr.length).foldl (splitStep ntiles max) ⟨wr, []⟩

/-! ### What is written -/

abbrev Reg := (ℕ × ℕ) × ℕ

def RetWr.write (w : RetWr) : Reg × ℕ := ((w.tile, w.off), w.val)

/-- The writes that `rt_ctrl_ret_split` carries out itself. -/
def mmioWrites (s : Split) : List (Reg × ℕ) := (s.wr.filter fun w => w.state ≠ .bcast).map RetWr.write

/-- Every broadcast register, sent to all tiles one after the other. -/
def bcastWrites (tiles : List (ℕ × ℕ)) (s : Split) : List (Reg × ℕ) :=
  s.bc.flatMap fun p => tiles.map fun t => ((t, p.1), p.2)

/-- `rt_ctrl_ret_flush_mmio`: the broadcast registers, tile by tile. -/
def rtCtrlRetFlushMmio (tiles : List (ℕ × ℕ)) (s : Split) : List (Reg × ℕ) :=
  tiles.flatMap fun t => s.bc.map fun p => ((t, p.1), p.2)

/-! ### The scan -/

section Scan

variable {a : RetWr}

/-- The bitmap holds the tiles of a set. -/
def SeenIs (seen : ℕ → ℕ) (S : List (ℕ × ℕ)) : Prop :=
  ∀ row col, (seen row).testBit col = true ↔ (col, row) ∈ S

theorem testBit_of_and_one {x col : ℕ} : (x >>> col) &&& 1 ≠ 0 ↔ x.testBit col = true := by
  rw [Nat.testBit, Nat.and_comm, bne_iff_ne]

theorem SeenIs.mark {seen : ℕ → ℕ} {S : List (ℕ × ℕ)} (h : SeenIs seen S) (b : RetWr) :
    SeenIs (Function.update seen b.row (seen b.row ||| (1 <<< b.col))) (b.tile :: S) := by
  intro row col
  rw [mem_cons, RetWr.tile, Prod.mk.injEq]
  by_cases hrow : row = b.row
  · subst hrow
    rw [Function.update_self, Nat.testBit_or, Bool.or_eq_true, h, Nat.one_shiftLeft, Nat.testBit_two_pow]
    simp only [decide_eq_true_eq]
    tauto
  · rw [Function.update_of_ne hrow, h]
    tauto

/-- **A scan that succeeds** counts the writes to the offset, which all carry the value and
are for different tiles. -/
theorem uniformLoop_sound {bs : List RetWr} :
    ∀ {seen : ℕ → ℕ} {hits h : ℕ} {S : List (ℕ × ℕ)}, SeenIs seen S →
    S.Nodup → uniformLoop a bs seen hits = some h →
    (((bs.filter fun b => b.off = a.off).map RetWr.tile).reverse ++ S).Nodup ∧
      h = hits + (bs.filter fun b => b.off = a.off).length ∧ ∀ b ∈ bs, b.off = a.off → b.val = a.val := by
  induction bs with
  | nil =>
    intro seen hits h S _ hnodup hrun
    exact ⟨hnodup, (Option.some.inj hrun).symm, nofun⟩
  | cons b bs ih =>
    intro seen hits h S hseen hnodup hrun
    rw [uniformLoop] at hrun
    by_cases hoff : b.off = a.off
    · rw [if_neg (not_not.2 hoff)] at hrun
      by_cases hbad : b.val ≠ a.val ∨ b.row > CPE_RET_MAX_ROWS ∨ b.col ≥ CPE_RET_MAX_COLS ∨
          (seen b.row >>> b.col) &&& 1 ≠ 0
      · rw [if_pos hbad] at hrun
        exact nomatch hrun
      rw [if_neg hbad] at hrun
      obtain ⟨hval, _, _, hnew⟩ := by simpa only [not_or] using hbad
      have hfresh : b.tile ∉ S := by
        intro hin
        exact hnew (testBit_of_and_one.2 ((hseen b.row b.col).2 hin))
      obtain ⟨hdistinct, hcount, hvals⟩ := ih (hseen.mark b) (nodup_cons.2 ⟨hfresh, hnodup⟩) hrun
      have hfilter : (b :: bs).filter (fun b => decide (b.off = a.off)) =
          b :: bs.filter (fun b => decide (b.off = a.off)) := filter_cons_of_pos (decide_eq_true hoff)
      rw [hfilter]
      refine ⟨?_, ?_, ?_⟩
      · rw [map_cons, reverse_cons, append_assoc]
        exact hdistinct
      · rw [hcount, length_cons]
        omega
      · intro c hc hcoff
        rcases mem_cons.1 hc with rfl | hc
        · exact not_not.1 hval
        · exact hvals c hc hcoff
    · rw [if_pos hoff] at hrun
      obtain ⟨hdistinct, hcount, hvals⟩ := ih hseen hnodup hrun
      rw [filter_cons_of_neg (by simpa using hoff)]
      refine ⟨hdistinct, hcount, ?_⟩
      intro c hc hcoff
      rcases mem_cons.1 hc with rfl | hc
      · exact absurd hcoff hoff
      · exact hvals c hc hcoff

theorem uniformLoop_map {g : RetWr → RetWr} (hoff : ∀ w, (g w).off = w.off) (hval : ∀ w, (g w).val = w.val)
    (htile : ∀ w, (g w).tile = w.tile) (bs : List RetWr) (seen : ℕ → ℕ) (hits : ℕ) :
    uniformLoop (g a) (bs.map g) seen hits = uniformLoop a bs seen hits := by
  induction bs generalizing seen hits with
  | nil => rfl
  | cons b bs ih =>
    obtain ⟨hcol, hrow⟩ := Prod.mk.inj (htile b)
    rw [map_cons, uniformLoop, uniformLoop, hoff, hoff, hval, hval, hcol, hrow, ih, ih]

/-- An offset that every tile receives, always with one value. -/
structure UniformAt (ws : List RetWr) (tiles : List (ℕ × ℕ)) (off val : ℕ) : Prop where
  val_eq : ∀ w ∈ ws, w.off = off → w.val = val
  covers : ∀ t ∈ tiles, ∃ w ∈ ws, w.off = off ∧ w.tile = t

/-- **Counting**: a scan that meets as many different tiles as there are meets all. -/
theorem uniform_sound {bs : List RetWr} {tiles : List (ℕ × ℕ)} (htiles : ∀ w ∈ bs, w.tile ∈ tiles)
    (h : cpeRetUniform a bs tiles.length = true) : UniformAt bs tiles a.off a.val := by
  have hempty : SeenIs (fun _ => 0) [] := by
    intro row col
    simp
  obtain ⟨hdistinct, hcount, hvals⟩ := uniformLoop_sound hempty nodup_nil (of_decide_eq_true h)
  rw [append_nil, nodup_reverse] at hdistinct
  refine ⟨hvals, ?_⟩
  have hsub : (bs.filter fun b => b.off = a.off).map RetWr.tile ⊆ tiles := by
    intro t ht
    obtain ⟨w, hw, rfl⟩ := mem_map.1 ht
    exact htiles w (mem_filter.1 hw).1
  have hperm := (hdistinct.subperm hsub).perm_of_length_le (by rw [length_map, hcount, Nat.zero_add])
  intro t ht
  obtain ⟨w, hw, htile⟩ := mem_map.1 (hperm.mem_iff.2 ht)
  obtain ⟨hw, hoff⟩ := mem_filter.1 hw
  exact ⟨w, hw, of_decide_eq_true hoff, htile⟩

end Scan

/-! ### The loop -/

section Loop

variable {ws : List RetWr} {tiles : List (ℕ × ℕ)} {max i : ℕ} {s : Split}

variable (done : List ℕ)

variable (bc : List (ℕ × ℕ))

/-- A write, after the offsets `done` are decided and `bc` are broadcast. -/
def marked (w : RetWr) : RetWr :=
  { w with state := if w.off ∈ done then if w.off ∈ bc.map Prod.fst then .bcast else .mmio else .undecided }

@[simp] theorem marked_off (w : RetWr) : (marked done bc w).off = w.off := rfl

@[simp] theorem marked_val (w : RetWr) : (marked done bc w).val = w.val := rfl

@[simp] theorem marked_tile (w : RetWr) : (marked done bc w).tile = w.tile := rfl

/-- The loop before index `i`: a write is decided if its offset occurs before `i`, and is
broadcast if its offset is; broadcast offsets are uniform over the whole list. -/
structure SplitInv (ws : List RetWr) (tiles : List (ℕ × ℕ)) (max i : ℕ) (s : Split) : Prop where
  wr : s.wr = ws.map (marked ((ws.take i).map RetWr.off) s.bc)
  nodup : (s.bc.map Prod.fst).Nodup
  length_le : s.bc.length ≤ max
  known : ∀ o ∈ s.bc.map Prod.fst, o ∈ (ws.take i).map RetWr.off
  uniform : ∀ p ∈ s.bc, UniformAt ws tiles p.1 p.2

theorem mem_drop_of_new {o : ℕ} (hnew : o ∉ (ws.take i).map RetWr.off) (hw : w ∈ ws) (hoff : w.off = o) :
    w ∈ ws.drop i := by
  rw [← take_append_drop i ws] at hw
  rcases mem_append.1 hw with hw | hw
  · exact absurd (mem_map.2 ⟨w, hw, hoff⟩) hnew
  · exact hw

theorem UniformAt.of_drop {o v : ℕ} (hnew : o ∉ (ws.take i).map RetWr.off)
    (h : UniformAt (ws.drop i) tiles o v) :
    UniformAt ws tiles o v := by
  refine ⟨fun w hw hoff => h.val_eq w (mem_drop_of_new hnew hw hoff) hoff, ?_⟩
  intro t ht
  obtain ⟨w, hw, hoff, htile⟩ := h.covers t ht
  exact ⟨w, mem_of_mem_drop hw, hoff, htile⟩

theorem take_succ_off (hw : ws[i]? = some w) :
    (ws.take (i + 1)).map RetWr.off = (ws.take i).map RetWr.off ++ [w.off] := by
  rw [take_add_one, hw, map_append]
  rfl

theorem mark_new {bc bc' : List (ℕ × ℕ)} {kind : WrState} (hw : ws[i]? = some w)
    (hnew : w.off ∉ (ws.take i).map RetWr.off)
    (hkind : kind = if w.off ∈ bc'.map Prod.fst then .bcast else .mmio)
    (hother : ∀ o, o ≠ w.off → (o ∈ bc'.map Prod.fst ↔ o ∈ bc.map Prod.fst)) :
    markFrom i w.off kind (ws.map (marked ((ws.take i).map RetWr.off) bc)) =
      ws.map (marked ((ws.take (i + 1)).map RetWr.off) bc') := by
  apply ext_getElem?
  intro j
  rw [markFrom, getElem?_mapIdx, getElem?_map, getElem?_map, take_succ_off hw]
  cases hx : ws[j]? with
  | none => rfl
  | some x =>
    refine congrArg some ?_
    beta_reduce
    by_cases hoff : x.off = w.off
    · -- an earlier write to the offset would have decided it
      have hij : i ≤ j := by
        by_contra hlt
        refine hnew (mem_map.2 ⟨x, ?_, hoff⟩)
        refine mem_of_getElem? (i := j) ?_
        rw [getElem?_take_of_lt (Nat.lt_of_not_le hlt), hx]
      have hdone : x.off ∈ (ws.take i).map RetWr.off ++ [w.off] := mem_append.2 (.inr (mem_singleton.2 hoff))
      have hin : i ≤ j ∧ (marked ((ws.take i).map RetWr.off) bc x).off = w.off := ⟨hij, hoff⟩
      rw [if_pos hin, marked, marked, if_pos hdone, hkind, hoff]
    · have hout : ¬(i ≤ j ∧ (marked ((ws.take i).map RetWr.off) bc x).off = w.off) := fun h => hoff h.2
      have hdone : x.off ∈ (ws.take i).map RetWr.off ++ [w.off] ↔ x.off ∈ (ws.take i).map RetWr.off := by
        rw [mem_append, mem_singleton]
        exact ⟨fun h => h.resolve_right hoff, .inl⟩
      rw [if_neg hout, marked, marked]
      simp only [hdone, hother x.off hoff]

/-- **One round** of the loop. -/
theorem splitStep_inv (htiles : ∀ w ∈ ws, w.tile ∈ tiles) (hi : i < ws.length)
    (h : SplitInv ws tiles max i s) :
    SplitInv ws tiles max (i + 1) (splitStep tiles.length max s i) := by
  obtain ⟨w, hw⟩ : ∃ w, ws[i]? = some w := ⟨_, getElem?_eq_getElem hi⟩
  have hget : s.wr[i]? = some (marked ((ws.take i).map RetWr.off) s.bc w) := by
    rw [h.wr, getElem?_map, hw]
    rfl
  unfold splitStep
  rw [hget]
  dsimp only
  by_cases hdone : w.off ∈ (ws.take i).map RetWr.off
  · -- decided before: nothing changes, and no offset is added
    have hstate : (marked ((ws.take i).map RetWr.off) s.bc w).state ≠ .undecided := by
      rw [marked]
      dsimp only
      rw [if_pos hdone]
      split <;> exact WrState.noConfusion
    rw [if_pos hstate]
    have hsame : ∀ o, o ∈ (ws.take (i + 1)).map RetWr.off ↔ o ∈ (ws.take i).map RetWr.off := by
      intro o
      rw [take_succ_off hw, mem_append, mem_singleton]
      exact ⟨fun h => h.elim id fun h => h ▸ hdone, .inl⟩
    refine ⟨?_, h.nodup, h.length_le, fun o ho => (hsame o).2 (h.known o ho), h.uniform⟩
    rw [h.wr]
    refine map_congr_left fun x _ => ?_
    rw [marked, marked]
    simp only [hsame]
  · have hstate : ¬(marked ((ws.take i).map RetWr.off) s.bc w).state ≠ .undecided := not_not.2 (if_neg hdone)
    rw [if_neg hstate]
    have hscan : cpeRetUniform (marked ((ws.take i).map RetWr.off) s.bc w) (s.wr.drop i) tiles.length =
        cpeRetUniform w (ws.drop i) tiles.length := by
      rw [h.wr, ← map_drop, cpeRetUniform, cpeRetUniform,
        uniformLoop_map (marked_off _ _) (marked_val _ _) (marked_tile _ _)]
    have hnotbc : w.off ∉ s.bc.map Prod.fst := fun hin => hdone (h.known _ hin)
    have hknown : ∀ o ∈ s.bc.map Prod.fst, o ∈ (ws.take (i + 1)).map RetWr.off := by
      intro o ho
      rw [take_succ_off hw]
      exact mem_append.2 (.inl (h.known o ho))
    rw [hscan, marked_off, marked_val, h.wr]
    by_cases huni : s.bc.length < max ∧ cpeRetUniform w (ws.drop i) tiles.length = true
    · rw [if_pos huni]
      have hbc : (s.bc ++ [(w.off, w.val)]).map Prod.fst = s.bc.map Prod.fst ++ [w.off] := map_append
      refine ⟨?_, ?_, ?_, ?_, ?_⟩
      · refine mark_new hw hdone ?_ ?_
        · rw [hbc, if_pos (mem_append.2 (.inr (mem_singleton.2 rfl)))]
        · intro o ho
          rw [hbc, mem_append, mem_singleton]
          exact ⟨fun h => h.resolve_right ho, .inl⟩
      · rw [hbc]
        refine nodup_append.2 ⟨h.nodup, nodup_singleton _, ?_⟩
        intro o ho o' ho' heq
        rw [mem_singleton.1 ho'] at heq
        exact hnotbc (heq ▸ ho)
      · rw [length_append]
        exact huni.1
      · intro o ho
        rw [hbc] at ho
        rcases mem_append.1 ho with ho | ho
        · exact hknown o ho
        · rw [take_succ_off hw]
          exact mem_append.2 (.inr ho)
      · intro p hp
        rcases mem_append.1 hp with hp | hp
        · exact h.uniform p hp
        · rw [mem_singleton.1 hp]
          exact (uniform_sound (fun x hx => htiles x (mem_of_mem_drop hx)) huni.2).of_drop hdone
    · rw [if_neg huni]
      refine ⟨?_, h.nodup, h.length_le, hknown, h.uniform⟩
      exact mark_new hw hdone (if_neg hnotbc).symm fun _ _ => Iff.rfl

/-- **The whole loop**: every write is decided, by its offset. -/
theorem split_spec (hundecided : ∀ w ∈ ws, w.state = .undecided) (htiles : ∀ w ∈ ws, w.tile ∈ tiles) :
    SplitInv ws tiles max ws.length (rtCpeRetSplit ws tiles.length max) := by
  have hrun : ∀ n, n ≤ ws.length → SplitInv ws tiles max n
      ((range n).foldl (splitStep tiles.length max) ⟨ws, []⟩) := by
    intro n
    induction n with
    | zero =>
      intro _
      refine ⟨?_, nodup_nil, Nat.zero_le _, nofun, nofun⟩
      conv_lhs => rw [show (foldl (splitStep tiles.length max) ⟨ws, []⟩ (range 0)).wr = ws from rfl]
      conv_lhs => rw [← map_id ws]
      refine map_congr_left fun w hw => ?_
      rw [marked, take_zero, map_nil, if_neg not_mem_nil, ← hundecided w hw]
      rfl
    | succ n ih =>
      intro hn
      rw [range_succ, foldl_append]
      exact splitStep_inv htiles hn (ih (Nat.le_of_succ_le hn))
  exact hrun ws.length (le_refl _)

theorem split_state (h : SplitInv ws tiles max ws.length s) :
    s.wr = ws.map fun w => { w with state := if w.off ∈ s.bc.map Prod.fst then .bcast else .mmio } := by
  rw [h.wr, take_length]
  refine map_congr_left fun w hw => ?_
  rw [marked, if_pos (mem_map.2 ⟨w, hw, rfl⟩)]

end Loop

/-! ### What the split does -/

section Meaning

variable {ws : List RetWr} {tiles : List (ℕ × ℕ)} {max : ℕ} {s : Split}

section

variable (h : SplitInv ws tiles max ws.length s)

include h

theorem mmioWrites_eq : mmioWrites s = (ws.map RetWr.write).filter fun x => x.1.2 ∉ s.bc.map Prod.fst := by
  rw [mmioWrites, split_state h, filter_map, map_map, filter_map]
  refine congrArg (map RetWr.write) (filter_congr fun w _ => ?_)
  show decide ((if w.off ∈ s.bc.map Prod.fst then WrState.bcast else WrState.mmio) ≠ .bcast) =
    decide (w.off ∉ s.bc.map Prod.fst)
  by_cases hin : w.off ∈ s.bc.map Prod.fst
  · rw [if_pos hin, decide_eq_false (not_not.2 hin)]
    rfl
  · rw [if_neg hin, decide_eq_true hin]
    rfl

theorem lastTo_mmio_of_bcast (hr : r.2 ∈ s.bc.map Prod.fst) : lastTo r (mmioWrites s) = none := by
  rw [mmioWrites_eq h]
  refine lastTo_eq_none.2 fun x hx heq => ?_
  rw [← heq] at hr
  exact of_decide_eq_true (mem_filter.1 hx).2 hr

theorem lastTo_mmio_of_not_bcast (hr : r.2 ∉ s.bc.map Prod.fst) :
    lastTo r (mmioWrites s) = lastTo r (ws.map RetWr.write) := by
  rw [mmioWrites_eq h]
  refine lastTo_filter fun x _ heq => ?_
  rw [heq]
  exact decide_eq_true hr

end

/-- The broadcast registers reach every tile, in some order. -/
def Broadcasts (tiles : List (ℕ × ℕ)) (s : Split) (bw : List (Reg × ℕ)) : Prop :=
  ∀ x, x ∈ bw ↔ ∃ t ∈ tiles, ∃ p ∈ s.bc, x = ((t, p.1), p.2)

theorem bcastWrites_broadcasts (tiles : List (ℕ × ℕ)) (s : Split) :
    Broadcasts tiles s (bcastWrites tiles s) := by
  intro x
  rw [bcastWrites, mem_flatMap]
  constructor
  · rintro ⟨p, hp, hx⟩
    obtain ⟨t, ht, rfl⟩ := mem_map.1 hx
    exact ⟨t, ht, p, hp, rfl⟩
  · rintro ⟨t, ht, p, hp, rfl⟩
    exact ⟨p, hp, mem_map.2 ⟨t, ht, rfl⟩⟩

theorem flush_broadcasts (tiles : List (ℕ × ℕ)) (s : Split) :
    Broadcasts tiles s (rtCtrlRetFlushMmio tiles s) := by
  intro x
  rw [rtCtrlRetFlushMmio, mem_flatMap]
  constructor
  · rintro ⟨t, ht, hx⟩
    obtain ⟨p, hp, rfl⟩ := mem_map.1 hx
    exact ⟨t, ht, p, hp, rfl⟩
  · rintro ⟨t, ht, p, hp, rfl⟩
    exact ⟨t, ht, mem_map.2 ⟨p, hp, rfl⟩⟩

variable {bw : List (Reg × ℕ)}

theorem lastTo_bcast_of_not (hbw : Broadcasts tiles s bw) (hr : r.2 ∉ s.bc.map Prod.fst) :
    lastTo r bw = none := by
  refine lastTo_eq_none.2 fun x hx heq => hr ?_
  obtain ⟨t, _, p, hp, rfl⟩ := (hbw x).1 hx
  rw [← heq]
  exact mem_map.2 ⟨p, hp, rfl⟩

/-- At a broadcast register a tile gets what all its writes leave there. -/
theorem lastTo_bcast (htiles : ∀ w ∈ ws, w.tile ∈ tiles) (h : SplitInv ws tiles max ws.length s)
    (hbw : Broadcasts tiles s bw) (hr : r.2 ∈ s.bc.map Prod.fst) :
    lastTo r bw = lastTo r (ws.map RetWr.write) := by
  obtain ⟨p, hp, hoff⟩ := mem_map.1 hr
  have huni := h.uniform p hp
  by_cases ht : r.1 ∈ tiles
  · obtain ⟨w, hw, hwoff, hwtile⟩ := huni.covers r.1 ht
    have hwval := huni.val_eq w hw hwoff
    have hall : lastTo r (ws.map RetWr.write) = some p.2 := by
      refine lastTo_of_all ?_ ⟨w.write, mem_map.2 ⟨w, hw, rfl⟩, ?_⟩
      · intro x hx heq
        obtain ⟨u, hu, rfl⟩ := mem_map.1 hx
        have huoff : u.off = r.2 := congrArg Prod.snd heq
        exact huni.val_eq u hu (huoff.trans hoff.symm)
      · rw [RetWr.write, hwtile, hwoff, hoff]
    have hsent : lastTo r bw = some p.2 := by
      refine lastTo_of_all ?_ ⟨((r.1, p.1), p.2), (hbw _).2 ⟨r.1, ht, p, hp, rfl⟩, ?_⟩
      · intro x hx heq
        obtain ⟨t, _, q, hq, rfl⟩ := (hbw x).1 hx
        have hqoff : q.1 = r.2 := congrArg Prod.snd heq
        -- the write `w` has the value of both
        have hqval := (h.uniform q hq).val_eq w hw (hwoff.trans (hoff.trans hqoff.symm))
        exact hqval.symm.trans hwval
      · rw [hoff]
    rw [hall, hsent]
  · have hall : lastTo r (ws.map RetWr.write) = none := by
      refine lastTo_eq_none.2 fun x hx heq => ht ?_
      obtain ⟨u, hu, rfl⟩ := mem_map.1 hx
      rw [← heq]
      exact htiles u hu
    have hsent : lastTo r bw = none := by
      refine lastTo_eq_none.2 fun x hx heq => ht ?_
      obtain ⟨t, ht', q, _, rfl⟩ := (hbw x).1 hx
      rw [← heq]
      exact ht'
    rw [hall, hsent]

/-- Broadcast first or last, the registers end as after all writes. -/
theorem run_split (htiles : ∀ w ∈ ws, w.tile ∈ tiles) (h : SplitInv ws tiles max ws.length s)
    (hbw : Broadcasts tiles s bw) (m : Reg → ℕ) :
    run (mmioWrites s ++ bw) m = run (ws.map RetWr.write) m ∧
      run (bw ++ mmioWrites s) m = run (ws.map RetWr.write) m := by
  constructor
  · funext r
    rw [run_apply, run_apply, lastTo_append]
    by_cases hr : r.2 ∈ s.bc.map Prod.fst
    · rw [lastTo_mmio_of_bcast h hr, lastTo_bcast htiles h hbw hr, Option.or_none]
    · rw [lastTo_mmio_of_not_bcast h hr, lastTo_bcast_of_not hbw hr, Option.none_or]
  · funext r
    rw [run_apply, run_apply, lastTo_append]
    by_cases hr : r.2 ∈ s.bc.map Prod.fst
    · rw [lastTo_mmio_of_bcast h hr, lastTo_bcast htiles h hbw hr, Option.none_or]
    · rw [lastTo_mmio_of_not_bcast h hr, lastTo_bcast_of_not hbw hr, Option.or_none]

/-- A split keeps the meaning of the writes: whatever the registers hold, sending the
broadcast registers to all tiles (packet by packet or tile by tile, before or after) and
carrying the other writes out in order leaves what all writes leave; every write is
decided, all writes to an offset alike, and the broadcast offsets are different and at
most `max`. -/
structure SplitPreserves (ws : List RetWr) (tiles : List (ℕ × ℕ)) (max : ℕ) (s : Split) : Prop where
  sent : ∀ m, run (mmioWrites s ++ bcastWrites tiles s) m = run (ws.map RetWr.write) m ∧
    run (bcastWrites tiles s ++ mmioWrites s) m = run (ws.map RetWr.write) m
  flushed : ∀ m, run (mmioWrites s ++ rtCtrlRetFlushMmio tiles s) m = run (ws.map RetWr.write) m
  decided : ∀ w ∈ s.wr, w.state ≠ .undecided
  alike : ∀ w ∈ s.wr, ∀ u ∈ s.wr, w.off = u.off → w.state = u.state
  distinct : (s.bc.map Prod.fst).Nodup
  bounded : s.bc.length ≤ max

end Meaning

/-- **Broadcast split.** For every list of undecided writes to tiles of a fabric. -/
theorem ret_split_preserves (ws : List RetWr) (tiles : List (ℕ × ℕ)) (max : ℕ)
    (hundecided : ∀ w ∈ ws, w.state = .undecided) (htiles : ∀ w ∈ ws, w.tile ∈ tiles) :
    SplitPreserves ws tiles max (rtCpeRetSplit ws tiles.length max) := by
  have h : SplitInv ws tiles max ws.length (rtCpeRetSplit ws tiles.length max) := split_spec hundecided htiles
  have hstate : ∀ w ∈ (rtCpeRetSplit ws tiles.length max).wr, w.state =
      if w.off ∈ (rtCpeRetSplit ws tiles.length max).bc.map Prod.fst then .bcast else .mmio := by
    intro w hw
    rw [split_state h] at hw
    obtain ⟨u, _, rfl⟩ := mem_map.1 hw
    rfl
  refine ⟨run_split htiles h (bcastWrites_broadcasts _ _), ?_, ?_, ?_, h.nodup, h.length_le⟩
  · exact fun m => (run_split htiles h (flush_broadcasts _ _) m).1
  · intro w hw
    rw [hstate w hw]
    split <;> exact WrState.noConfusion
  · intro w hw u hu hoff
    rw [hstate w hw, hstate u hu, hoff]

/-- Two tiles, one offset with the same value on both, one with two values. -/
theorem ret_split_preserves_two : ∃ ws : List RetWr, (rtCpeRetSplit ws 2 16).bc = [(4, 7)] ∧
    SplitPreserves ws [(1, 3), (2, 3)] 16 (rtCpeRetSplit ws 2 16) := by
  refine ⟨[⟨1, 3, 4, 7, .undecided⟩, ⟨1, 3, 8, 5, .undecided⟩, ⟨2, 3, 8, 6, .undecided⟩,
    ⟨2, 3, 4, 7, .undecided⟩],
    by decide, ?_⟩
  exact ret_split_preserves _ [(1, 3), (2, 3)] 16 (by decide) (by decide)

end AieHlc.Control
