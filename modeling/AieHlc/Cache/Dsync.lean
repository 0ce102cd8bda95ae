import Mathlib.Algebra.Order.BigOperators.Group.List
import Mathlib.Data.List.Induction
import Mathlib.Tactic.Ring

/-!
# Deferred cache maintenance

Model of `rt_dsync_run` and `__Runtime_sync_for_dev_deferred` (`aie_runtime.c`). The launch queues
the ranges of its arguments; polls work them off in pieces, ranges the CPU has written first, and
hard points drain the queue. Addresses and sizes are 64-bit.

* `dsyncPass`, `dsyncRun`: pieces of maintenance under a budget.
* `Dsync`, `Op`: the queue with what was asked for and what was done, and the calls that change it.
* `pass_count`: a pass moves every byte from the queue to the log.
* `dsync_complete`: nothing is lost, done twice or done in the wrong way.
-/

namespace AieHlc.Cache

open List

def RT_DSYNC_MAX : ℕ := 16
def RT_DSYNC_CHUNK : ℕ := 16384

/-- `(size_t)-1`. -/
def SIZE_MAX : ℕ := 2 ^ 64 - 1

/-- `rt_dsync_rng`: what is left of a queued range. -/
structure Rng where
  dev : ℕ
  cur : ℕ
  stop : ℕ
  invalOnly : Bool
  deriving DecidableEq, Repr

/-- Maintenance of a range: to invalidate it, or to clean it as well. -/
structure Maint where
  inval : Bool
  dev : ℕ
  addr : ℕ
  len : ℕ
  deriving DecidableEq, Repr

/-- How much of a range is done under a budget. -/
def Rng.piece (r : Rng) (budget : ℕ) : ℕ := if r.stop - r.cur < budget then r.stop - r.cur else budget

/-- One pass over the queue, for one kind of ranges: the queue, the budget that is left and what was done. -/
def dsyncPass (pass : Bool) : ℕ → List Rng → List Rng × ℕ × List Maint
  | budget, [] => ([], budget, [])
  | budget, r :: rs =>
    if budget = 0 then (r :: rs, 0, [])
    else if r.invalOnly ≠ pass ∨ r.cur ≥ r.stop then
      let rest := dsyncPass pass budget rs
      (r :: rest.1, rest.2)
    else
      let n := r.piece budget
      let rest := dsyncPass pass (budget - n) rs
      ({ r with cur := r.cur + n } :: rest.1, rest.2.1, ⟨r.invalOnly, r.dev, r.cur, n⟩ :: rest.2.2)

variable (inputsOnly : Bool)

/-- The second pass, unless only inputs are asked for or the budget is used up. -/
def secondPass (budget : ℕ) (q : List Rng) : List Rng × List Maint :=
  if budget = 0 ∨ inputsOnly then (q, [])
  else
    let r := dsyncPass true budget q
    (r.1, r.2.2)

/-- `rt_dsync_run`: the queue that is left and what was done. -/
def dsyncRun (budget : ℕ) (q : List Rng) : List Rng × List Maint :=
  let first := if budget = 0 then (q, 0, []) else dsyncPass false budget q
  let second := secondPass inputsOnly first.2.1 first.1
  (second.1.filter fun r => r.cur < r.stop, first.2.2 ++ second.2)

/-- `rt_devwr_covers`, `rt_nc_covers`: a table of ranges has one around `[lo, hi)`. -/
def covered (table : List (ℕ × ℕ)) (lo hi : ℕ) : Bool := table.any fun e => e.1 ≤ lo && hi ≤ e.2

/-- The queue, the ranges that were queued, what was done for them, and what was done at once. -/
structure Dsync where
  queue : List Rng := []
  queued : List Maint := []
  log : List Maint := []
  direct : List (Option ℕ × ℕ × ℕ) := []
  deriving DecidableEq, Repr

/-- The calls; the tables of uncached and of device-written buffers are those at the time of the request. -/
inductive Op where
  | defer (nc devwr : List (ℕ × ℕ)) (dev : Option ℕ) (ptr size : ℕ)
  | run (inputsOnly : Bool) (budget : ℕ)

/-- `__Runtime_sync_for_dev`: an uncached range needs nothing. -/
def Dsync.syncForDev (s : Dsync) (nc : List (ℕ × ℕ)) (dev : Option ℕ) (ptr size : ℕ) : Dsync :=
  if covered nc ptr ((ptr + size) % 2 ^ 64) then s else { s with direct := s.direct ++ [(dev, ptr, size)] }

/-- `__Runtime_sync_for_dev_deferred`. -/
def Dsync.defer (s : Dsync) (nc devwr : List (ℕ × ℕ)) (dev : Option ℕ) (ptr size : ℕ) : Dsync :=
  if ptr = 0 ∨ size = 0 then s
  else
    match dev with
    | none => s.syncForDev nc none ptr size
    | some d =>
      if s.queue.length = RT_DSYNC_MAX then s.syncForDev nc (some d) ptr size
      else
        let hi := (ptr + size) % 2 ^ 64
        if covered nc ptr hi then s
        else { s with
          queue := s.queue ++ [⟨d, ptr, hi, covered devwr ptr hi⟩]
          queued := s.queued ++ [⟨covered devwr ptr hi, d, ptr, size⟩] }

/-- `rt_dsync_run`, behind the test that its callers make. -/
def Dsync.work (s : Dsync) (inputsOnly : Bool) (budget : ℕ) : Dsync :=
  if s.queue.length = 0 then s
  else
    let r := dsyncRun inputsOnly budget s.queue
    { s with queue := r.1, log := s.log ++ r.2 }

def Dsync.step (s : Dsync) : Op → Dsync
  | .defer nc devwr dev ptr size => s.defer nc devwr dev ptr size
  | .run inputsOnly budget => s.work inputsOnly budget

/-- `rt_dsync_step`. -/
def dsyncStep : Op := .run false RT_DSYNC_CHUNK

/-- `rt_dsync_drain_inputs`. -/
def dsyncDrainInputs : Op := .run true SIZE_MAX

/-- `__Runtime_dsync_drain`. -/
def dsyncDrain : Op := .run false SIZE_MAX

def dsyncExec (ops : List Op) : Dsync := ops.foldl Dsync.step {}

/-! ## One range of a pass -/

section Range

variable {pass : Bool} {budget : ℕ} {r : Rng} {rs : List Rng}

theorem piece_le : r.cur + r.piece budget ≤ max r.cur r.stop := by
  unfold Rng.piece
  split_ifs <;> omega

theorem piece_eq (h : r.stop - r.cur ≤ budget) : r.piece budget = r.stop - r.cur := by
  unfold Rng.piece
  split_ifs <;> omega

/-- A pass comes to a range with no budget, passes it over, or does a piece of it. -/
theorem pass_cases (pass : Bool) (budget : ℕ) (r : Rng) (rs : List Rng) :
    budget = 0 ∧ dsyncPass pass budget (r :: rs) = (r :: rs, 0, []) ∨
    budget ≠ 0 ∧ (r.invalOnly ≠ pass ∨ r.stop ≤ r.cur) ∧
      dsyncPass pass budget (r :: rs) = (r :: (dsyncPass pass budget rs).1, (dsyncPass pass budget rs).2) ∨
    r.invalOnly = pass ∧ r.cur < r.stop ∧ dsyncPass pass budget (r :: rs) =
      ({ r with cur := r.cur + r.piece budget } :: (dsyncPass pass (budget - r.piece budget) rs).1,
        (dsyncPass pass (budget - r.piece budget) rs).2.1,
        ⟨r.invalOnly, r.dev, r.cur, r.piece budget⟩ :: (dsyncPass pass
          (budget - r.piece budget) rs).2.2) := by
  by_cases hbudget : budget = 0
  · refine .inl ⟨hbudget, ?_⟩
    rw [dsyncPass, if_pos hbudget]
  · by_cases hskip : r.invalOnly ≠ pass ∨ r.cur ≥ r.stop
    · refine .inr (.inl ⟨hbudget, hskip, ?_⟩)
      rw [dsyncPass, if_neg hbudget, if_pos hskip]
    · refine .inr (.inr ⟨?_, ?_, ?_⟩)
      · by_contra hne
        exact hskip (.inl hne)
      · by_contra hge
        exact hskip (.inr (by omega))
      · rw [dsyncPass, if_neg hbudget, if_neg hskip]

end Range

/-! ## Bytes -/

/-- The byte at `x` is maintained for device `d`, in kind `k`. -/
def Maint.hits (k : Bool) (d x : ℕ) (m : Maint) : Bool :=
  m.inval = k && m.dev = d && m.addr ≤ x && x < m.addr + m.len

/-- The byte at `x` is still to be maintained for device `d`, in kind `k`. -/
def Rng.hits (k : Bool) (d x : ℕ) (r : Rng) : Bool := r.invalOnly = k && r.dev = d && r.cur ≤ x && x < r.stop

section Bytes

variable {k pass inputsOnly : Bool} {d x budget : ℕ} {q : List Rng}

/-- A range that is worked off in part is hit once, by the part or by the rest. -/
theorem hits_split {r : Rng} {n : ℕ} (hn : r.cur + n ≤ r.stop) :
    (if Maint.hits k d x ⟨r.invalOnly, r.dev, r.cur, n⟩ then 1 else 0) +
      (if Rng.hits k d x { r with cur := r.cur + n } then 1 else 0) = if r.hits k d x then 1 else 0 := by
  simp only [Maint.hits, Rng.hits, Bool.and_eq_true, decide_eq_true_eq]
  by_cases hkd : r.invalOnly = k ∧ r.dev = d
  · simp only [hkd, true_and]
    split_ifs <;> omega
  · have hno : ∀ p p' : Prop, ¬(((r.invalOnly = k ∧ r.dev = d) ∧ p) ∧ p') := fun _ _ h => hkd h.1.1
    simp only [hno, if_false]

/-- **A pass loses no byte and does none twice.** -/
theorem pass_count : (dsyncPass pass budget q).2.2.countP (Maint.hits k d x) +
    (dsyncPass pass budget q).1.countP (Rng.hits k d x) = q.countP (Rng.hits k d x) := by
  induction q generalizing budget with
  | nil => rfl
  | cons r rs ih =>
    obtain ⟨_, heq⟩ | ⟨_, _, heq⟩ | ⟨_, hlt, heq⟩ := pass_cases pass budget r rs
    · simp [heq]
    · have hrest := @ih budget
      simp only [heq, countP_cons]
      omega
    · have hrest := @ih (budget - r.piece budget)
      have hle := @piece_le budget r
      have hsplit := @hits_split k d x r (r.piece budget) (by omega)
      simp only [heq, countP_cons]
      omega

theorem secondPass_count : (secondPass inputsOnly budget q).2.countP (Maint.hits k d x) +
    (secondPass inputsOnly budget q).1.countP (Rng.hits k d x) = q.countP (Rng.hits k d x) := by
  unfold secondPass
  split
  · simp
  · exact pass_count

theorem compact_count : (q.filter fun r => r.cur < r.stop).countP (Rng.hits k d x) = q.countP
    (Rng.hits k d x) := by
  rw [countP_filter]
  apply countP_congr
  intro r _
  simp only [Rng.hits, Bool.and_eq_true, decide_eq_true_eq]
  constructor
  · exact fun h => h.1
  · exact fun h => ⟨h, by omega⟩

theorem firstPass_eq (q : List Rng) (budget : ℕ) :
    (if budget = 0 then (q, 0, []) else dsyncPass false budget q) = dsyncPass false budget q := by
  split_ifs with h
  · subst h
    cases q <;> rfl
  · rfl

theorem run_count : (dsyncRun inputsOnly budget q).2.countP (Maint.hits k d x) +
    (dsyncRun inputsOnly budget q).1.countP (Rng.hits k d x) = q.countP (Rng.hits k d x) := by
  unfold dsyncRun
  dsimp only
  rw [firstPass_eq, compact_count, countP_append, add_assoc, secondPass_count]
  exact pass_count

end Bytes

/-! ## What a pass finishes -/

def left (pass : Bool) (q : List Rng) : ℕ :=
  ((q.filter fun r => r.invalOnly = pass).map fun r => r.stop - r.cur).sum

section Passes

variable {pass inputsOnly : Bool} {budget : ℕ} {q : List Rng}

theorem left_cons (r : Rng) :
    left pass (r :: q) = (if r.invalOnly = pass then r.stop - r.cur else 0) + left pass q := by
  unfold left
  by_cases h : r.invalOnly = pass <;> simp [h]

theorem pass_length : (dsyncPass pass budget q).1.length = q.length := by
  induction q generalizing budget with
  | nil => rfl
  | cons r rs ih =>
    obtain ⟨_, heq⟩ | ⟨_, _, heq⟩ | ⟨_, _, heq⟩ := pass_cases pass budget r rs
    · rw [heq]
    · rw [heq, length_cons, length_cons, ih]
    · rw [heq, length_cons, length_cons, ih]

/-- What is left of a range is a tail of it. -/
theorem pass_shrinks {r' : Rng} (h : r' ∈ (dsyncPass pass budget q).1) :
    ∃ r ∈ q, r'.stop = r.stop ∧ r.cur ≤ r'.cur := by
  induction q generalizing budget with
  | nil => cases h
  | cons r rs ih =>
    obtain ⟨_, heq⟩ | ⟨_, _, heq⟩ | ⟨_, _, heq⟩ := pass_cases pass budget r rs <;> rw [heq] at h
    · exact ⟨r', h, rfl, le_rfl⟩
    · rcases mem_cons.1 h with rfl | h
      · exact ⟨r', by simp, rfl, le_rfl⟩
      · obtain ⟨r₀, hmem, hr₀⟩ := ih h
        exact ⟨r₀, mem_cons_of_mem _ hmem, hr₀⟩
    · rcases mem_cons.1 h with rfl | h
      · exact ⟨r, by simp, rfl, Nat.le_add_right _ _⟩
      · obtain ⟨r₀, hmem, hr₀⟩ := ih h
        exact ⟨r₀, mem_cons_of_mem _ hmem, hr₀⟩

/-- A pass leaves the other kind of range alone. -/
theorem pass_other {other : Bool} (hne : pass ≠ other) :
    (dsyncPass pass budget q).1.filter (fun r => r.invalOnly = other) = q.filter fun r =>
    r.invalOnly = other := by
  induction q generalizing budget with
  | nil => rfl
  | cons r rs ih =>
    obtain ⟨_, heq⟩ | ⟨_, _, heq⟩ | ⟨hkind, _, heq⟩ := pass_cases pass budget r rs
    · rw [heq]
    · simp only [heq, filter_cons, ih]
    · simp [heq, ih, hkind, hne]

theorem left_other {other : Bool} (hne : pass ≠ other) :
    left other (dsyncPass pass budget q).1 = left other q := by
  unfold left
  rw [pass_other hne]

theorem pass_kind {m : Maint} (h : m ∈ (dsyncPass pass budget q).2.2) : m.inval = pass := by
  induction q generalizing budget with
  | nil => cases h
  | cons r rs ih =>
    obtain ⟨_, heq⟩ | ⟨_, _, heq⟩ | ⟨hkind, _, heq⟩ := pass_cases pass budget r rs <;> rw [heq] at h
    · cases h
    · exact ih h
    · rcases mem_cons.1 h with rfl | h
      · exact hkind
      · exact ih h

theorem done_of_left {r : Rng} (h : left pass q = 0) (hr : r ∈ q) (hkind : r.invalOnly = pass) :
    r.stop ≤ r.cur := by
  have hmem : r.stop - r.cur ∈ (q.filter fun r => r.invalOnly = pass).map fun r => r.stop - r.cur :=
    mem_map_of_mem (mem_filter.2 ⟨hr, by simpa using hkind⟩)
  have hzero := (sum_eq_zero_iff.1 h) _ hmem
  omega

/-- **Under a budget that suffices, a pass finishes its kind.** -/
theorem pass_finishes (h : left pass q ≤ budget) :
    (∀ r ∈ (dsyncPass pass budget q).1, r.invalOnly = pass → r.stop ≤ r.cur) ∧
      (dsyncPass pass budget q).2.1 = budget - left pass q := by
  induction q generalizing budget with
  | nil => exact ⟨fun _ hr => (by cases hr), rfl⟩
  | cons r rs ih =>
    obtain ⟨hzero, heq⟩ | ⟨_, hskip, heq⟩ | ⟨hkind, _, heq⟩ := pass_cases pass budget r rs <;> rw [heq]
    · -- no budget is needed: nothing is left of this kind
      refine ⟨fun r' hr' hkind => done_of_left (Nat.le_zero.1 (hzero ▸ h)) hr' hkind, ?_⟩
      dsimp only
      omega
    · have hnone : left pass (r :: rs) = left pass rs := by
        rw [left_cons]
        split_ifs with hkind
        · have hge := hskip.resolve_left fun hne => hne hkind
          omega
        · omega
      rw [hnone] at h ⊢
      obtain ⟨hdone, hrest⟩ := ih h
      refine ⟨fun r' hr' hkind => ?_, hrest⟩
      rcases mem_cons.1 hr' with rfl | hr'
      · exact hskip.resolve_left fun hne => hne hkind
      · exact hdone r' hr' hkind
    · rw [left_cons, if_pos hkind] at h ⊢
      have hpiece : r.piece budget = r.stop - r.cur := piece_eq (by omega)
      obtain ⟨hdone, hrest⟩ := @ih (budget - r.piece budget) (by omega)
      refine ⟨fun r' hr' hk => ?_, ?_⟩
      · rcases mem_cons.1 hr' with rfl | hr'
        · dsimp only
          omega
        · exact hdone r' hr' hk
      · dsimp only
        rw [hrest]
        omega

theorem secondPass_eq : secondPass false budget q =
    ((dsyncPass true budget q).1, (dsyncPass true budget q).2.2) := by
  by_cases h : budget = 0
  · rw [secondPass, if_pos (.inl h), h]
    cases q <;> rfl
  · rw [secondPass, if_neg (by simp [h])]

/-- A budget for everything that is left drains the queue. -/
theorem run_drains (h : left false q + left true q ≤ budget) : (dsyncRun false budget q).1 = [] := by
  obtain ⟨hclean, hbudget⟩ := @pass_finishes false budget q (by omega)
  obtain ⟨hinval, -⟩ := @pass_finishes true (budget - left false q) (dsyncPass false budget q).1
    (by rw [left_other (by simp)]; omega)
  unfold dsyncRun
  dsimp only
  rw [firstPass_eq, filter_eq_nil_iff, hbudget, secondPass_eq]
  intro r hr
  rw [decide_eq_true_eq, not_lt]
  cases hkind : r.invalOnly with
  | true => exact hinval r hr hkind
  | false =>
    -- the second pass has left it as the first one did
    have hmem : r ∈ (dsyncPass true (budget - left false q) (dsyncPass false budget q).1).1.filter
        fun r => r.invalOnly = false := mem_filter.2 ⟨hr, by simpa using hkind⟩
    rw [pass_other (by simp)] at hmem
    exact hclean r (mem_filter.1 hmem).1 hkind

theorem run_inputs_eq : dsyncRun true budget q =
    ((dsyncPass false budget q).1.filter (fun r => r.cur < r.stop), (dsyncPass false budget q).2.2) := by
  unfold dsyncRun secondPass
  dsimp only
  rw [firstPass_eq, if_pos (.inr rfl), append_nil]

theorem run_drains_inputs (h : left false q ≤ budget) {r : Rng} (hr : r ∈ (dsyncRun true budget q).1) :
    r.invalOnly = true := by
  rw [run_inputs_eq] at hr
  obtain ⟨hmem, hlt⟩ := mem_filter.1 hr
  rw [decide_eq_true_eq] at hlt
  cases hkind : r.invalOnly with
  | true => rfl
  | false =>
    have hdone := (pass_finishes h).1 r hmem hkind
    omega

theorem run_untouched (hq : ∀ r ∈ q, r.cur < r.stop) :
    (dsyncRun true budget q).1.filter (fun r => r.invalOnly = true) = q.filter (fun r => r.invalOnly = true) ∧
      ∀ m ∈ (dsyncRun true budget q).2, m.inval = false := by
  rw [run_inputs_eq]
  refine ⟨?_, fun m hm => pass_kind hm⟩
  rw [filter_comm, pass_other (by simp), filter_eq_self]
  intro r hr
  exact decide_eq_true (hq r (mem_filter.1 hr).1)

end Passes

/-! ## Runs -/

/-- A request for memory that exists: it does not wrap, and sixteen of its size are below `2 ^ 64` bytes. -/
def Op.Fits : Op → Prop
  | .defer _ _ _ ptr size => ptr + size < 2 ^ 64 ∧ size < 2 ^ 60
  | .run _ _ => True

/-- What holds of the queue after every call. -/
structure Dsync.Ok (s : Dsync) : Prop where
  length : s.queue.length ≤ RT_DSYNC_MAX
  nonempty : ∀ r ∈ s.queue, r.cur < r.stop
  small : ∀ r ∈ s.queue, r.stop - r.cur < 2 ^ 60
  count : ∀ k d x, s.log.countP (Maint.hits k d x) + s.queue.countP (Rng.hits k d x) =
    s.queued.countP (Maint.hits k d x)

section Runs

variable {s : Dsync}

/-- What is queued is counted without overflow. -/
theorem Dsync.Ok.left_le (h : s.Ok) : left false s.queue + left true s.queue ≤ SIZE_MAX := by
  have hsum : ∀ q : List Rng, (∀ r ∈ q, r.stop - r.cur < 2 ^ 60) →
      left false q + left true q ≤ q.length * (2 ^ 60 - 1) := by
    intro q hq
    induction q with
    | nil => exact le_rfl
    | cons r rs ih =>
      have hrs := ih fun r' hr' => hq r' (mem_cons_of_mem _ hr')
      have hr := hq r mem_cons_self
      rw [left_cons, left_cons, length_cons]
      cases r.invalOnly <;> simp <;> omega
  have hle := hsum s.queue h.small
  have hlen := h.length
  unfold SIZE_MAX
  unfold RT_DSYNC_MAX at hlen
  omega

theorem run_length (budget : ℕ) (q : List Rng) :
    (dsyncRun inputsOnly budget q).1.length ≤ q.length := by
  have hsecond : ∀ b q', (secondPass inputsOnly b q').1.length = q'.length := by
    intro b q'
    unfold secondPass
    split
    · rfl
    · exact pass_length
  unfold dsyncRun
  dsimp only
  refine le_trans (length_filter_le _ _) ?_
  rw [hsecond, firstPass_eq, pass_length]

theorem run_shrinks {inputsOnly : Bool} {budget : ℕ} {q : List Rng} {r' : Rng}
    (h : r' ∈ (dsyncRun inputsOnly budget q).1) : r'.cur < r'.stop ∧
    ∃ r ∈ q, r'.stop = r.stop ∧ r.cur ≤ r'.cur := by
  unfold dsyncRun at h
  dsimp only at h
  rw [firstPass_eq] at h
  obtain ⟨hmem, hlt⟩ := mem_filter.1 h
  refine ⟨of_decide_eq_true hlt, ?_⟩
  unfold secondPass at hmem
  split at hmem
  · exact pass_shrinks hmem
  · obtain ⟨r₁, h₁, hstop₁, hcur₁⟩ := pass_shrinks hmem
    obtain ⟨r, hr, hstop, hcur⟩ := pass_shrinks h₁
    exact ⟨r, hr, hstop₁.trans hstop, hcur.trans hcur₁⟩

theorem Dsync.Ok.work (h : s.Ok) (inputsOnly : Bool) (budget : ℕ) : (s.work inputsOnly budget).Ok := by
  unfold Dsync.work
  split
  · exact h
  · constructor
    · exact (run_length _ _ _).trans h.length
    · exact fun r hr => (run_shrinks hr).1
    · intro r' hr'
      obtain ⟨_, r, hr, hstop, hcur⟩ := run_shrinks hr'
      have := h.small r hr
      omega
    · intro k d x
      have hcount := h.count k d x
      have hrun := @run_count k inputsOnly d x budget s.queue
      simp only [countP_append]
      omega

/-- Queueing a range keeps the bounds; with a full queue it is worked off at once. -/
theorem Dsync.Ok.defer (h : s.Ok) {nc devwr : List (ℕ × ℕ)} {dev : Option ℕ} {ptr size : ℕ}
    (hfit : ptr + size < 2 ^ 64 ∧ size < 2 ^ 60) : (s.defer nc devwr dev ptr size).Ok := by
  have hdirect : ∀ dev, (s.syncForDev nc dev ptr size).Ok := by
    intro dev
    unfold Dsync.syncForDev
    split
    · exact h
    · exact ⟨h.length, h.nonempty, h.small, h.count⟩
  by_cases hempty : ptr = 0 ∨ size = 0
  · unfold Dsync.defer
    rw [if_pos hempty]
    exact h
  · unfold Dsync.defer
    rw [if_neg hempty]
    cases dev with
    | none => exact hdirect none
    | some d =>
      dsimp only
      split_ifs with hfull hnc
      · exact hdirect (some d)
      · exact h
      · rw [Nat.mod_eq_of_lt hfit.1]
        constructor
        · have hlen := h.length
          simp only [length_append, length_singleton]
          omega
        · intro r hr
          rcases mem_append.1 hr with hr | hr
          · exact h.nonempty r hr
          · obtain rfl := mem_singleton.1 hr
            dsimp only
            omega
        · intro r hr
          rcases mem_append.1 hr with hr | hr
          · exact h.small r hr
          · obtain rfl := mem_singleton.1 hr
            dsimp only
            omega
        · intro k d' x
          have hsame : Maint.hits k d' x ⟨covered devwr ptr (ptr + size), d, ptr, size⟩ =
              Rng.hits k d' x ⟨d, ptr, ptr + size, covered devwr ptr (ptr + size)⟩ := rfl
          dsimp only
          rw [countP_append, countP_append, countP_singleton, countP_singleton, hsame,
            ← add_assoc, h.count k d' x]

theorem Dsync.Ok.step (h : s.Ok) {op : Op} (hfit : op.Fits) : (s.step op).Ok := by
  cases op with
  | defer nc devwr dev ptr size => exact h.defer hfit
  | run inputsOnly budget => exact h.work inputsOnly budget

theorem exec_ok {ops : List Op} (hops : ∀ op ∈ ops, op.Fits) : (dsyncExec ops).Ok := by
  induction ops using List.reverseRecOn with
  | nil => exact ⟨Nat.zero_le _, fun _ hr => (by cases hr), fun _ hr => (by cases hr), fun _ _ _ => rfl⟩
  | append_singleton ops op ih =>
    unfold dsyncExec at ih ⊢
    rw [foldl_append]
    exact (ih fun op' hop' => hops op' (mem_append_left _ hop')).step (hops op (by simp))

/-- What deferred maintenance is to give, between calls. -/
structure Complete (s : Dsync) : Prop where
  /-- every byte is maintained once for every range that has it, in the kind of the range, or is
  still queued -/
  once : ∀ k d x, s.log.countP (Maint.hits k d x) + s.queue.countP (Rng.hits k d x) =
    s.queued.countP (Maint.hits k d x)
  /-- before the data plane starts no range is left that the CPU has written -/
  inputs : ∀ r ∈ (s.step dsyncDrainInputs).queue, r.invalOnly = true
  /-- steps for inputs, with any budget, leave the other ranges -/
  untouched : ∀ budget, (s.step (.run true budget)).queue.filter (fun r => r.invalOnly = true) =
    s.queue.filter fun r => r.invalOnly = true
  /-- and the launch ends with an empty queue -/
  drained : (s.step dsyncDrain).queue = []

/-- **Deferred maintenance is complete**, after any calls for ranges that exist. -/
theorem dsync_complete {ops : List Op} (hops : ∀ op ∈ ops, op.Fits) : Complete (dsyncExec ops) := by
  have hok := exec_ok hops
  generalize dsyncExec ops = s at hok
  have hwork : ∀ inputsOnly budget, s.queue.length ≠ 0 →
      (s.work inputsOnly budget).queue = (dsyncRun inputsOnly budget s.queue).1 := by
    intro inputsOnly budget hne
    rw [Dsync.work, if_neg hne]
  have hidle : ∀ inputsOnly budget, s.queue.length = 0 → (s.work inputsOnly budget).queue = [] := by
    intro inputsOnly budget hzero
    rw [Dsync.work, if_pos hzero]
    exact length_eq_zero_iff.1 hzero
  have hleft := hok.left_le
  refine ⟨hok.count, ?_, ?_, ?_⟩
  · intro r hr
    change r ∈ (s.work true SIZE_MAX).queue at hr
    by_cases hzero : s.queue.length = 0
    · rw [hidle _ _ hzero] at hr
      cases hr
    · rw [hwork _ _ hzero] at hr
      exact run_drains_inputs (by omega) hr
  · intro budget
    change (s.work true budget).queue.filter _ = _
    by_cases hzero : s.queue.length = 0
    · rw [hidle _ _ hzero, length_eq_zero_iff.1 hzero]
    · rw [hwork _ _ hzero]
      exact (run_untouched hok.nonempty).1
  · change (s.work false SIZE_MAX).queue = []
    by_cases hzero : s.queue.length = 0
    · exact hidle _ _ hzero
    · rw [hwork _ _ hzero]
      exact run_drains hleft

/-- An input and an output of a launch, and a step. -/
theorem dsync_complete_launch :
    (dsyncExec [.defer [] [] (some 0) 0x1000 0x8000, .defer [] [(0x9000, 0xF000)] (some 0) 0x9000 0x6000,
      dsyncStep]).queue = [⟨0, 0x5000, 0x9000, false⟩, ⟨0, 0x9000, 0xF000, true⟩] ∧
    Complete (dsyncExec [.defer [] [] (some 0) 0x1000 0x8000, .defer [] [(0x9000, 0xF000)]
      (some 0) 0x9000 0x6000,
      dsyncStep]) := by
  refine ⟨by decide +kernel, dsync_complete ?_⟩
  intro op hop
  simp only [mem_cons, not_mem_nil, or_false] at hop
  rcases hop with rfl | rfl | rfl <;> simp [Op.Fits, dsyncStep]

/-- Two ranges of `2 ^ 63` bytes: the budget of a drain is one byte short. -/
theorem not_complete_huge :
    ¬Complete (dsyncExec [.defer [] [] (some 0) 1 (2 ^ 63), .defer [] [] (some 0) 1 (2 ^ 63)]) := by
  intro h
  exact absurd h.drained (by decide +kernel)

end Runs

end AieHlc.Cache
