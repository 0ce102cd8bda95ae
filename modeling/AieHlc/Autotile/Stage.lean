import AieHlc.Memory.Writes
import Mathlib.Algebra.BigOperators.Group.List.Basic
import Mathlib.Data.Fin.VecNotation
import Mathlib.Data.Int.ConditionallyCompleteOrder
import Mathlib.Data.List.Forall2
import Mathlib.Data.List.Infix
import Mathlib.Data.List.OfFn
import Mathlib.Order.ConditionallyCompleteLattice.Basic
import Mathlib.Tactic.Linarith
import Mathlib.Tactic.Ring

/-!
# The staged layout of a tensor

A tensor-form kernel may load blocks that leave the tensor, and the DMA moves whole words. So an input is
copied into a buffer with a zero border and an aligned channel dim, and the kernel's block calls are lowered
to the buffer's coordinates.

* `portUse`: the bounding box of the traced blocks of a port; `layoutFrom`: the extents of the buffer.
* `stage`: the copy of `aiehlc_stage`; `lowerOff`, `lowerShape`: what `lowerCall` makes of a block.
* `stage_read`: every cell of the buffer.
* `staged_block_reads`: a lowered block stays in the buffer and reads the tensor, or zero outside of it.
-/

namespace AieHlc.Autotile

open Function List AieHlc.Memory

/-- An `aie::tensor<T, d0, …>` of rank `r + 1`: the element type's name, the extents and the elements. -/
structure Tensor (α : Type) (r : ℕ) where
  elem : String
  dims : Fin (r + 1) → ℤ
  data : ℤ → α
  nonneg : ∀ d, 0 ≤ dims d

/-- A traced block, in the tensor's coordinates. -/
structure Block (r : ℕ) where
  off : Fin (r + 1) → ℤ
  shape : Fin (r + 1) → ℤ

/-- What the blocks of a port reach, and whether each takes the whole last dim. -/
structure PortUse (r : ℕ) where
  lo : Fin (r + 1) → ℤ
  hi : Fin (r + 1) → ℤ
  wholeLast : Bool := true

/-- The buffer of a port: its low borders and its extents. -/
structure PortLayout (r : ℕ) where
  lo : Fin (r + 1) → ℤ
  phys : Fin (r + 1) → ℤ

variable {α : Type} {r : ℕ}

/-- One block event of `traceLogical`. -/
def PortUse.add (dims : Fin (r + 1) → ℤ) (u : PortUse r) (b : Block r) : PortUse r where
  lo d := min (u.lo d) (b.off d)
  hi d := max (u.hi d) (b.off d + b.shape d)
  wholeLast := u.wholeLast && (b.off (.last r) = 0 && b.shape (.last r) = dims (.last r))

/-- The events of a port; the first block starts the box. -/
def portUse (dims : Fin (r + 1) → ℤ) : List (Block r) → Option (PortUse r)
  | [] => none
  | b :: bs => some ((b :: bs).foldl (PortUse.add dims) ⟨b.off, fun d => b.off d + b.shape d, true⟩)

def elemBytes (t : String) : ℤ :=
  if "16".toList <:+: t.toList then 2
  else if "32".toList <:+: t.toList ∨ t = "float" then 4
  else 1

/-- How far the blocks reach outside, below and above. -/
def PortUse.below (u : PortUse r) (d : Fin (r + 1)) : ℤ := max 0 (-u.lo d)

def PortUse.above (t : Tensor α r) (u : PortUse r) (d : Fin (r + 1)) : ℤ := max 0 (u.hi d - t.dims d)

/-- The loop of `layoutFrom` over the dims. -/
def borders (who : String) (out : Bool) (t : Tensor α r) (u : PortUse r) : Except String (PortLayout r) :=
  -- the first dim whose border is not allowed
  match (finRange (r + 1)).find? fun d => (u.below d ≠ 0 ∨ u.above t d ≠ 0) ∧ (out ∨ d = .last r) with
  | some d => throw (who ++ ": blocks reach outside the tensor in dim " ++ toString d.val ++
      (if out then " of an output" else " (the channel dim)") ++
        "; only an input's spatial dims can be zero-padded")
  | none => return {
      lo := u.below
      phys := fun d => if u.below d = 0 ∧ u.above t d = 0 then t.dims d
        else t.dims d + u.below d + max (u.below d) (u.above t d) }

/-- `layoutFrom` for one port; `who` names the kernel and the port. -/
def layoutFrom (who : String) (out : Bool) (t : Tensor α r) (use : Option (PortUse r)) :
    Except String (PortLayout r) := do
  let pl ← match use with
    | some u => borders who out t u
    | none => pure ⟨fun _ => 0, t.dims⟩
  let align := max 1 (4 / elemBytes t.elem)
  let n := t.dims (.last r)
  if n % align = 0 then return pl
  else if out then
    throw (who ++ ": an output's last dim (" ++ toString n ++ ") must be a multiple of " ++ toString align)
  else if use.any (!·.wholeLast) then
    throw (who ++ ": blocks take part of the channel dim (C = " ++ toString n ++
      "); the staged layout aligns channels to " ++ toString align ++ ", so a block must take all of them")
  else return { pl with phys := update pl.phys (.last r) ((n + align - 1) / align * align) }

/-- `lowerCall`: the offset of a block in the buffer. -/
def lowerOff (pl : PortLayout r) (off : Fin (r + 1) → ℤ) (d : Fin (r + 1)) : ℤ := off d + pl.lo d

/-- `lowerCall`: an aligned last dim is taken whole. -/
def lowerShape (t : Tensor α r) (pl : PortLayout r) (shape : Fin (r + 1) → ℤ) (d : Fin (r + 1)) : ℤ :=
  if d = .last r ∧ pl.phys d ≠ t.dims d then pl.phys d else shape d

/-- One dim of the copy. -/
structure StageAxis where
  dim : ℤ
  lo : ℤ
  phys : ℤ

def PortLayout.axes (t : Tensor α r) (pl : PortLayout r) : List StageAxis :=
  ofFn fun d => ⟨t.dims d, pl.lo d, pl.phys d⟩

def rowMajor : List ℤ → List ℤ → ℤ
  | _ :: ns, x :: xs => x * ns.prod + rowMajor ns xs
  | _, _ => 0

/-- The inner loop of `aiehlc_stage`, over the dims from the last one: rest, position and stride. -/
def stagePos (axes : List StageAxis) (i : ℤ) : ℤ × ℤ × ℤ :=
  axes.foldr (fun a s => (s.1 / a.dim, s.2.1 + (s.1 % a.dim + a.lo) * s.2.2, s.2.2 * a.phys)) (i, 0, 1)

/-- `aiehlc_stage`: zeros, then the elements of the tensor one by one. -/
def stage [Zero α] (t : Tensor α r) (pl : PortLayout r) : ℤ → α :=
  run ((range (ofFn t.dims).prod.toNat).map fun i : ℕ => ((stagePos (pl.axes t) i).2.1, t.data i)) fun _ => 0

def readAt (p : ℤ → α) (dims x : Fin (r + 1) → ℤ) : α := p (rowMajor (ofFn dims) (ofFn x))

def Within : List ℤ → List ℤ → Prop := List.Forall₂ fun n x => 0 ≤ x ∧ x < n

def Inside (dims x : Fin (r + 1) → ℤ) : Prop := ∀ d, 0 ≤ x d ∧ x d < dims d

instance (dims x : Fin (r + 1) → ℤ) : Decidable (Inside dims x) := inferInstanceAs (Decidable (∀ _, _))

/-! ### Row-major positions -/

theorem Within.bounds {ns xs : List ℤ} (h : Within ns xs) :
    0 ≤ rowMajor ns xs ∧ rowMajor ns xs < ns.prod := by
  induction h with
  | nil => simp [rowMajor]
  | @cons n x ns xs hx _ ih =>
    simp only [rowMajor, prod_cons]
    constructor
    · nlinarith [mul_nonneg hx.1 (ih.1.trans ih.2.le)]
    · nlinarith [mul_le_mul_of_nonneg_right (show x + 1 ≤ n by omega) (ih.1.trans ih.2.le)]

theorem rowMajor_inj {ns xs ys : List ℤ} (hx : Within ns xs) (hy : Within ns ys)
    (h : rowMajor ns xs = rowMajor ns ys) : xs = ys := by
  induction hx generalizing ys with
  | nil => cases hy; rfl
  | @cons n x ns xs hx hxs ih =>
    cases hy with
    | @cons _ y _ ys hy hys =>
      have hbx := Within.bounds hxs
      have hby := Within.bounds hys
      simp only [rowMajor] at h
      -- both are the quotient and the rest by the size of an inner slice
      have hq : x = y := by
        by_contra hne
        rcases lt_or_gt_of_ne hne with hlt | hlt <;> nlinarith
      rw [hq, ih hys (by rw [hq] at h; omega)]

theorem exists_rowMajor {ns : List ℤ} (hpos : ∀ n ∈ ns, 0 ≤ n) {i : ℤ} (h0 : 0 ≤ i) (hi : i < ns.prod) :
    ∃ xs, Within ns xs ∧ rowMajor ns xs = i := by
  induction ns generalizing i with
  | nil =>
    rw [prod_nil] at hi
    exact ⟨[], .nil, by simp [rowMajor]; omega⟩
  | cons n ns ih =>
    rw [prod_cons] at hi
    -- a position below the size means that no extent is zero
    have hp : 0 < ns.prod := pos_of_mul_pos_right (h0.trans_lt hi) (hpos n (by simp))
    obtain ⟨xs, hxs, hr⟩ := ih (fun m hm => hpos m (by simp [hm])) (Int.emod_nonneg i hp.ne')
      (Int.emod_lt_of_pos i hp)
    refine ⟨i / ns.prod :: xs, .cons ⟨Int.ediv_nonneg h0 hp.le, Int.ediv_lt_of_lt_mul hp hi⟩ hxs, ?_⟩
    rw [rowMajor, hr, mul_comm]
    exact Int.mul_ediv_add_emod i ns.prod

/-! ### The copy -/

/-- The border leaves room for the tensor. -/
def StageAxis.Holds (a : StageAxis) : Prop := 0 ≤ a.lo ∧ a.dim + a.lo ≤ a.phys

/-- Coordinates of the tensor in the buffer. -/
def shift (axes : List StageAxis) (xs : List ℤ) : List ℤ := zipWith (fun a x => x + a.lo) axes xs

variable {axes : List StageAxis}

theorem shift_within (ha : ∀ a ∈ axes, a.Holds) {c : List ℤ} (hc : Within (axes.map (·.dim)) c) :
    Within (axes.map (·.phys)) (shift axes c) := by
  induction axes generalizing c with
  | nil => cases hc; exact .nil
  | cons a as ih =>
    cases hc with
    | cons hx hxs =>
      have hh := ha a (by simp)
      unfold StageAxis.Holds at hh
      exact .cons (by simp only at hx ⊢; omega) (ih (fun b hb => ha b (by simp [hb])) hxs)

theorem shift_inj {c c' : List ℤ} (hc : c.length = axes.length) (hc' : c'.length = axes.length)
    (h : shift axes c = shift axes c') : c = c' := by
  induction axes generalizing c c' with
  | nil => rw [length_eq_zero_iff.1 hc, length_eq_zero_iff.1 hc']
  | cons a as ih =>
    obtain ⟨x, xs, rfl⟩ := exists_cons_of_length_eq_add_one hc
    obtain ⟨y, ys, rfl⟩ := exists_cons_of_length_eq_add_one hc'
    simp only [shift, zipWith_cons_cons, cons.injEq] at h
    rw [ih (by simpa using hc) (by simpa using hc') h.2, show x = y by omega]

theorem stagePos_eq {c : List ℤ} (hc : Within (axes.map (·.dim)) c) (k : ℤ) :
    stagePos axes (rowMajor (axes.map (·.dim)) c + (axes.map (·.dim)).prod * k) =
      (k, rowMajor (axes.map (·.phys)) (shift axes c), (axes.map (·.phys)).prod) := by
  induction axes generalizing c k with
  | nil =>
    cases hc
    simp [stagePos, rowMajor]
  | cons a as ih =>
    cases hc with
    | @cons _ x _ xs hx hxs =>
      have hd : (0 : ℤ) < a.dim := by simp only at hx; omega
      -- what the inner dims leave is the coordinate and the rest of the outer dims
      have hi : rowMajor ((a :: as).map (·.dim)) (x :: xs) + ((a :: as).map (·.dim)).prod * k =
          rowMajor (as.map (·.dim)) xs + (as.map (·.dim)).prod * (x + a.dim * k) := by
        simp only [map_cons, rowMajor, prod_cons]
        ring
      have hmod : (x + a.dim * k) % a.dim = x := by
        rw [Int.add_mul_emod_self_left, Int.emod_eq_of_lt hx.1 hx.2]
      have hdiv : (x + a.dim * k) / a.dim = k := by
        rw [Int.add_mul_ediv_left _ _ hd.ne', Int.ediv_eq_zero_of_lt hx.1 hx.2, zero_add]
      have hrest := ih hxs (x + a.dim * k)
      unfold stagePos at hrest ⊢
      rw [hi, foldr_cons, hrest]
      simp only [hmod, hdiv, shift, map_cons, zipWith_cons_cons, rowMajor, prod_cons, Prod.mk.injEq,
        true_and]
      constructor <;> ring

open Classical in
/-- **The copy**, cell by cell: an element of the tensor, or what was there before. -/
theorem copy_read {axes : List StageAxis} (hpos : ∀ n ∈ axes.map StageAxis.dim, 0 ≤ n)
    (ha : ∀ a ∈ axes, a.Holds) (data m : ℤ → α)
    {c : List ℤ} (hc : c.length = axes.length) (hx : Within (axes.map StageAxis.phys) (shift axes c)) :
    run ((range (axes.map StageAxis.dim).prod.toNat).map fun i : ℕ => ((stagePos axes i).2.1, data i)) m
        (rowMajor (axes.map StageAxis.phys) (shift axes c)) =
      if Within (axes.map StageAxis.dim) c then data (rowMajor (axes.map StageAxis.dim) c)
      else m (rowMajor (axes.map StageAxis.phys) (shift axes c)) := by
  set dims := axes.map StageAxis.dim with hd
  have hwrite : ∀ c, Within dims c → (stagePos axes (rowMajor dims c)).2.1 =
      rowMajor (axes.map StageAxis.phys) (shift axes c) := by
    intro c hc
    have hpos := stagePos_eq hc 0
    rw [mul_zero, add_zero] at hpos
    rw [hpos]
  -- the element whose copy goes to a cell
  have helem : ∀ i ∈ range dims.prod.toNat, (stagePos axes i).2.1 = rowMajor
    (axes.map StageAxis.phys) (shift axes c) →
      Within dims c ∧ rowMajor dims c = i := by
    intro i hi he
    rw [mem_range] at hi
    obtain ⟨c', hc', hi'⟩ := exists_rowMajor hpos (Int.natCast_nonneg i) (by omega)
    rw [← hi', hwrite c' hc'] at he
    have hl : c'.length = axes.length := by rw [← List.Forall₂.length_eq hc', hd, length_map]
    have hcc := shift_inj hl hc (rowMajor_inj (shift_within ha hc') hx he)
    exact ⟨hcc ▸ hc', hcc ▸ hi'⟩
  rw [run_apply]
  by_cases hin : Within dims c
  · have hb := hin.bounds
    rw [if_pos hin, lastTo_of_all (v := data (rowMajor dims c)), Option.getD_some]
    · intro w hw hwa
      obtain ⟨i, hi, rfl⟩ := mem_map.1 hw
      rw [(helem i hi hwa).2]
    · refine ⟨_, mem_map.2 ⟨(rowMajor dims c).toNat, mem_range.2 (by omega), rfl⟩, ?_⟩
      rw [Int.toNat_of_nonneg hb.1, hwrite c hin]
  · rw [if_neg hin, lastTo_eq_none.2, Option.getD_none]
    intro w hw hwa
    obtain ⟨i, hi, rfl⟩ := mem_map.1 hw
    exact hin (helem i hi hwa).1

theorem within_ofFn {n : ℕ} {dims x : Fin n → ℤ} :
    Within (ofFn dims) (ofFn x) ↔ ∀ d, 0 ≤ x d ∧ x d < dims d := by
  induction n with
  | zero => simp [Within]
  | succ n ih =>
    have hrest := @ih (fun d => dims d.succ) fun d => x d.succ
    simp only [Within] at hrest
    simp [Within, ofFn_succ, Fin.forall_fin_succ, hrest]

theorem shift_ofFn {n : ℕ} (a : Fin n → StageAxis) (c : Fin n → ℤ) :
    shift (ofFn a) (ofFn c) = ofFn fun d => c d + (a d).lo := by
  apply ext_getElem <;> simp [shift]

variable [Zero α]

/-- **The staged buffer.** Every cell holds its element of the tensor, or zero outside of it. -/
theorem stage_read {t : Tensor α r} {pl : PortLayout r}
    (ha : ∀ d, 0 ≤ pl.lo d ∧ t.dims d + pl.lo d ≤ pl.phys d)
    {c : Fin (r + 1) → ℤ} (hx : Inside pl.phys (lowerOff pl c)) :
    readAt (stage t pl) pl.phys (lowerOff pl c) = if Inside t.dims c then readAt t.data t.dims c else 0 := by
  have hdim : (pl.axes t).map (·.dim) = ofFn t.dims := by simp [PortLayout.axes, map_ofFn, comp_def]
  have hphys : (pl.axes t).map (·.phys) = ofFn pl.phys := by
    simp [PortLayout.axes, map_ofFn, comp_def]
  have hshift : shift (pl.axes t) (ofFn c) = ofFn (lowerOff pl c) := shift_ofFn _ c
  have hpos : ∀ n ∈ (pl.axes t).map (·.dim), 0 ≤ n := by
    rw [hdim, forall_mem_ofFn_iff]
    exact t.nonneg
  have hcopy := copy_read hpos (forall_mem_ofFn_iff.2 ha) t.data (fun _ => 0) (c := ofFn c)
    (by simp [PortLayout.axes]) (by rw [hphys, hshift]; exact within_ofFn.2 hx)
  rw [hdim, hphys, hshift] at hcopy
  rw [readAt, stage, hcopy]
  simp only [within_ofFn, readAt, Inside]
  congr

/-! ### The layout -/

/-- The box `u` holds the block, and says whether it takes the whole last dim. -/
structure PortUse.Has (u : PortUse r) (b : Block r) : Prop where
  lo : ∀ d, u.lo d ≤ b.off d
  hi : ∀ d, b.off d + b.shape d ≤ u.hi d
  whole : u.wholeLast = true → b.off (.last r) = 0

variable {dims : Fin (r + 1) → ℤ}

theorem PortUse.has_add {u : PortUse r} {b c : Block r} (h : u.Has b ∨ b = c) :
    (u.add dims c).Has b := by
  rcases h with h | rfl
  · refine ⟨fun d => (min_le_left _ _).trans (h.lo d), fun d => (h.hi d).trans (le_max_left _ _),
      fun hw => h.whole ?_⟩
    simp only [PortUse.add, Bool.and_eq_true] at hw
    exact hw.1
  · refine ⟨fun d => min_le_right _ _, fun d => le_max_right _ _, fun hw => ?_⟩
    simp only [PortUse.add, Bool.and_eq_true, decide_eq_true_eq] at hw
    exact hw.2.1

theorem foldl_has {b : Block r} (bs : List (Block r)) (u : PortUse r) (h : u.Has b ∨ b ∈ bs) :
    (bs.foldl (PortUse.add dims) u).Has b := by
  induction bs generalizing u with
  | nil => simpa using h
  | cons c bs ih =>
    rw [mem_cons, ← or_assoc] at h
    exact ih _ (h.imp_left PortUse.has_add)

/-- **The box** of the blocks of a port holds each of them. -/
theorem portUse_has {bs : List (Block r)} {b : Block r} (hb : b ∈ bs) :
    ∃ u, portUse dims bs = some u ∧ u.Has b := by
  cases bs with
  | nil => simp at hb
  | cons c bs => exact ⟨_, rfl, foldl_has (c :: bs) _ (.inr hb)⟩

/-- What a border is for: it holds the tensor and every block in the box, and the last dim has none. -/
structure PortLayout.Bordered (t : Tensor α r) (u : PortUse r) (pl : PortLayout r) : Prop where
  holds : ∀ d, 0 ≤ pl.lo d ∧ t.dims d + pl.lo d ≤ pl.phys d
  lo : ∀ d, 0 ≤ u.lo d + pl.lo d
  hi : ∀ d, u.hi d + pl.lo d ≤ pl.phys d
  last : pl.lo (.last r) = 0 ∧ pl.phys (.last r) = t.dims (.last r)

omit [Zero α] in
theorem borders_ok {who : String} {out : Bool} {t : Tensor α r} {u : PortUse r} {pl : PortLayout r}
    (h : borders who out t u = .ok pl) : pl.Bordered t u := by
  unfold borders at h
  split at h
  · cases h
  · rename_i hnone
    cases h
    have hlast := find?_eq_none.1 hnone (.last r) (mem_finRange _)
    simp only [or_true, and_true, decide_eq_true_eq, not_or, not_not] at hlast
    have hb := fun d => le_max_left 0 (-u.lo d)
    refine ⟨fun d => ⟨hb d, ?_⟩, fun d => ?_, fun d => ?_, hlast.1, if_pos hlast⟩
    all_goals
      simp only [PortUse.below, PortUse.above] at hb ⊢
    · split_ifs <;> omega
    · omega
    · split_ifs <;> omega

omit [Zero α] in
theorem PortLayout.Bordered.fits {t : Tensor α r} {u : PortUse r} {pl : PortLayout r} (hB : pl.Bordered t u)
    {b : Block r} (hhas : u.Has b) (d : Fin (r + 1)) :
    0 ≤ b.off d + pl.lo d ∧ b.off d + b.shape d + pl.lo d ≤ pl.phys d := by
  have h1 := hB.lo d
  have h2 := hB.hi d
  have h3 := hhas.lo d
  have h4 := hhas.hi d
  omega

/-- **Staged blocks.** A lowered block of an accepted layout stays inside the buffer, and reads the
element of the tensor at each of its positions, or zero where the position is outside the tensor; a
widened last dim is taken whole. -/
theorem staged_block_reads {who : String} {out : Bool} {t : Tensor α r} {bs : List (Block r)}
    {pl : PortLayout r}
    (h : layoutFrom who out t (portUse t.dims bs) = .ok pl) {b : Block r} (hb : b ∈ bs)
    {pos : Fin (r + 1) → ℤ} (hpos : Inside (lowerShape t pl b.shape) pos) :
    Inside pl.phys (lowerOff pl b.off + pos) ∧
      readAt (stage t pl) pl.phys (lowerOff pl b.off + pos) =
        (if Inside t.dims (b.off + pos) then readAt t.data t.dims (b.off + pos) else 0) ∧
      (pl.phys (.last r) ≠ t.dims (.last r) →
        lowerOff pl b.off (.last r) = 0 ∧ lowerShape t pl b.shape (.last r) = pl.phys (.last r)) := by
  obtain ⟨u, hu, hhas⟩ := @portUse_has r t.dims bs b hb
  have heq : lowerOff pl b.off + pos = lowerOff pl (b.off + pos) := by
    funext d
    simp only [lowerOff, Pi.add_apply]
    ring
  suffices hfit : (∀ d, 0 ≤ pl.lo d ∧ t.dims d + pl.lo d ≤ pl.phys d) ∧
    Inside pl.phys (lowerOff pl (b.off + pos)) ∧
      (pl.phys (.last r) ≠ t.dims (.last r) → lowerOff pl b.off (.last r) = 0) by
    rw [heq]
    exact ⟨hfit.2.1, stage_read hfit.1 hfit.2.1, fun hw => ⟨hfit.2.2 hw, if_pos ⟨rfl, hw⟩⟩⟩
  rw [hu] at h
  simp only [layoutFrom] at h
  cases hbd : borders who out t u with
  | error e => simp [hbd, bind, Except.bind] at h
  | ok pl₀ =>
    have hB := borders_ok hbd
    simp only [hbd, bind, Except.bind, pure, Except.pure] at h
    split_ifs at h with hal hout hwhole
    · -- the last dim is aligned as it is
      cases h
      refine ⟨hB.holds, fun d => ?_, fun hw => absurd hB.last.2 hw⟩
      have hp := hpos d
      rw [lowerShape, if_neg fun hd => hd.2 (hd.1 ▸ hB.last.2)] at hp
      have hfit := hB.fits hhas d
      simp only [lowerOff, Pi.add_apply]
      omega
    · -- every block takes the whole last dim, which is widened
      simp only [Option.any_some, Bool.not_eq_true', Bool.not_eq_false] at hwhole
      have h0 := hhas.whole hwhole
      set n := t.dims (.last r) with hn
      set align := max 1 (4 / elemBytes t.elem) with halign
      have hge : n ≤ (n + align - 1) / align * align := by
        have h1 : 1 ≤ align := le_max_left _ _
        have h2 := Int.emod_add_mul_ediv (n + align - 1) align
        have h3 := Int.emod_lt_of_pos (n + align - 1) (show 0 < align by omega)
        rw [mul_comm] at h2
        omega
      cases h
      have hne : ∀ d, d ≠ .last r → update pl₀.phys (.last r) ((n + align - 1) / align * align) d =
          pl₀.phys d :=
        fun d hd => update_of_ne hd _ _
      refine ⟨fun d => ⟨(hB.holds d).1, ?_⟩, fun d => ?_, fun _ => by rw [lowerOff, h0, hB.last.1, add_zero]⟩
      · by_cases hd : d = .last r
        · subst hd
          simpa [hB.last.1, ← hn] using hge
        · simpa [hne d hd] using (hB.holds d).2
      · have hp := hpos d
        have hfit := hB.fits hhas d
        simp only [lowerOff, Pi.add_apply]
        by_cases hd : d = .last r
        · subst hd
          rw [hB.last.1, hB.last.2, h0] at hfit
          simp only [lowerShape, true_and, update_self, h0, hB.last.1, ← hn] at hp ⊢
          split_ifs at hp with hw <;> omega
        · simp only [lowerShape, hd, false_and, if_false, hne d hd] at hp ⊢
          omega

/-- A two by three image of bytes; the traced block starts one row above it. -/
def byteImage : Tensor ℤ 1 := ⟨"int8_t", ![2, 3], fun i => i + 1, by decide⟩

def rowAbove : Block 1 := ⟨![-1, 0], ![2, 3]⟩

/-- The last element of the first row, read through the staged buffer. -/
theorem staged_block_reads_image : ∃ pl : PortLayout 1,
    layoutFrom "conv: ifm" false byteImage (portUse byteImage.dims [rowAbove]) = .ok pl ∧
      readAt (stage byteImage pl) pl.phys (lowerOff pl rowAbove.off + ![1, 2]) = 3 := by
  have hlay : layoutFrom "conv: ifm" false byteImage (portUse byteImage.dims [rowAbove]) = .ok _ := rfl
  have hread := @staged_block_reads ℤ 1 _ _ _ _ _ _ hlay rowAbove (mem_singleton.2 rfl) ![1, 2] (by decide)
  exact ⟨_, hlay, hread.2.1.trans (by decide)⟩

end AieHlc.Autotile
