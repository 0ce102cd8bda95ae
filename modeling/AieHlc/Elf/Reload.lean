import AieHlc.Control.Plan
import AieHlc.Elf.Warm

/-!
# Reloads over a run

The kernel loads of `aie_runtime.c` over a whole run: `__Runtime_ctrl_plan_init` with its
one-entry cache, `rt_ctrl_load_elf` with the ahead-of-time path `rt_ctrl_load_elf_aot` and
its fallback, the direct loads, partition re-initialisations and kernels that run. A blob
is identified by its address and does not change. What the hardware decides (whether a
transfer succeeds, what a failed one leaves behind) comes with each event.

* `rtElfWarmUsable`: the test that lets a load leave program memory out.
* `step`, `exec`: one event, and a run.
* `WarmSound`: where the test passes, the tiles of the fabric hold the program.
* `fresh`: the tiles that the last full load reached and nothing has written since.
* `exec_held`: **those tiles hold the program**, over every run.
* `StepKeeps`: what an event must not do; `warm_sound`: **the test is sound in runs of such events**.
* `warmSound_of_steady`: in particular while plans do not move and the counters have room.
-/

namespace AieHlc.Elf

open Option AieHlc.Word AieHlc.Packet AieHlc.Memory AieHlc.Control

/-! ### Blobs and fabrics -/

/-- `rt_cpe_fingerprint`. -/
def rtCpeFingerprint (d : CpeDev) (streamId : ℕ) : ℕ :=
  [d.progMemSize, d.progMemHostOff, d.dataMemAddr, d.dataMemSize, d.coreCtrlOff, d.coreRstMask,
    d.checkerboard.toNat,
    d.dmaChCtrlOff, d.dmaChStride, d.dmaNch, d.dmaChRstMask, streamId].foldl
    (fun h v => u32 ((h ^^^ v) * 16777619)) 2166136261

def RT_CPE_MAGIC : ℕ := 0x43504B31
def RT_CPE_VERSION : ℕ := 2
/-- `sizeof(rt_cpe_blob_hdr)`. -/
def blobHdrBytes : ℕ := 32

/-- A blob: what is read of its header (`rt_cpe_blob_hdr`), and the words behind it. -/
structure Blob where
  magic : ℕ
  version : ℕ
  fingerprint : ℕ
  streamId : ℕ
  nresp : ℕ
  bodyWords : ℕ
  encTile : ℕ
  word : ℕ → ℕ
  bodyWords_lt : bodyWords < 2 ^ 32

def Blob.full (b : Blob) : Body := ⟨b.bodyWords, 0, b.word⟩

/-- What loads read of a `__Runtime_CtrlRowFabric`. -/
structure CtrlRowFabric where
  dev : ℕ
  rows : List CtrlRowChain
  dedicatedShim : Bool
  deriving DecidableEq

/-- `rt_ctrl_fabric_tiles`. -/
def rtCtrlFabricTiles (f : CtrlRowFabric) : ℕ :=
  f.rows.foldl (fun n r => u32 (n + (r.colHi + 2 ^ 32 - r.colLo) + 1)) 0

/-- The tiles of the rows of a fabric, as column and row of its device. -/
def CtrlRowFabric.tiles (f : CtrlRowFabric) : List (ℕ × ℕ) :=
  f.rows.flatMap fun r => (cols r.colLo r.colHi).map (·, r.row)

/-! ### Plans -/

/-- A call of `__Runtime_ctrl_plan_init`; `emits` tells which of the rows the switches
take, `routed` whether the return leg of the shim is set up. -/
structure PlanCall where
  fab : ℕ
  dev : ℕ
  shimCol : ℕ
  respCh : ℤ
  ctrlId : ℕ
  rows : Option (List CtrlRowChain)
  emits : CtrlRowChain → Bool
  routed : Bool

/-- The loop of `rt_ctrl_plan_add_rows`: the rows recorded in the fabric, and whether all
went well. A row that is configured already is not recorded again. -/
def addRows (shimCol ctrlId top : ℕ) (emits : CtrlRowChain → Bool) :
    List CtrlRowChain → Planner → List CtrlRowChain → List CtrlRowChain × Bool
  | [], _, acc => (acc, true)
  | x :: xs, p, acc =>
    if acc.length ≥ ACR_MAX_ROWS then (acc, false)
    else match planRow shimCol ctrlId top x [] p with
      | .error _ => (acc, false)
      | .ok (_, p') =>
        if emits x then
          addRows shimCol ctrlId top emits xs p'
            (if p'.spine.rows.length > p.spine.rows.length then acc ++ [x] else acc)
        else (acc, false)

/-- `rt_ctrl_plan_add_rows` on a fresh fabric. -/
def rtCtrlPlanAddRows (c : PlanCall) : List CtrlRowChain × Bool :=
  match c.rows with
  | none => ([], false)
  | some rows =>
    if rows = [] ∨ rows.length > ACR_MAX_ROWS then ([], false)
    else addRows c.shimCol c.ctrlId (topRow rows) c.emits rows Planner.init []

/-- `rt_ctrl_plan_init` on the fabric `f`: the fabric it leaves, and its success. -/
def rtCtrlPlanInit (c : PlanCall) (f : CtrlRowFabric) : CtrlRowFabric × Bool :=
  if c.fab = 0 ∨ c.dev = 0 then (f, false)
  else
    let r := rtCtrlPlanAddRows c
    (⟨c.dev, r.1, r.2 && !r.1.isEmpty && r.1.all fun x => decide (c.shimCol < x.colLo)⟩, r.2 && c.routed)

/-- `g_plan_cache`, when it is valid. -/
structure PlanCache where
  gen : ℕ
  fab : ℕ
  dev : ℕ
  shimCol : ℕ
  ctrlId : ℕ
  respCh : ℤ
  ready : Bool
  rows : List CtrlRowChain
  snap : CtrlRowFabric

/-! ### The state of a run -/

/-- `s_elf_warm`; the warm body with its length, unless there is none. -/
structure ElfWarm where
  blob : ℕ
  fab : ℕ
  dev : ℕ
  gen : ℕ
  seq : ℕ
  ok : Bool
  body : Option Out

/-- The memory of every tile of the array, by its column and row. -/
abbrev Mem := ℕ × ℕ → ℕ → ℕ

/-- What loads read and write; `startCol` is where the partition of a device starts. -/
structure State where
  warm : ElfWarm
  warmEnabled : Bool
  gen : ℕ
  seq : ℕ
  ready : Bool
  pkt : ℕ
  pktBytes : ℕ
  fabs : ℕ → CtrlRowFabric
  cache : Option PlanCache
  startCol : ℕ → ℕ
  mem : Mem

def init (m : Mem) : State where
  warm := ⟨0, 0, 0, 0, 0, false, none⟩
  warmEnabled := true
  gen := 1
  seq := 0
  ready := false
  pkt := 0
  pktBytes := 0
  fabs := fun _ => ⟨0, [], false⟩
  cache := none
  startCol := fun _ => 0
  mem := m

def State.tiles (s : State) (fab : ℕ) : List (ℕ × ℕ) :=
  (s.fabs fab).tiles.map fun t => (s.startCol (s.fabs fab).dev + t.1, t.2)

/-- `rt_elf_warm_usable`. -/
def rtElfWarmUsable (s : State) (fab blob : ℕ) : Prop :=
  s.warmEnabled = true ∧ s.warm.ok = true ∧ s.warm.body.isSome = true ∧ s.warm.blob = blob ∧
    s.warm.fab = fab ∧
    s.warm.dev = (s.fabs fab).dev ∧ s.warm.gen = s.gen ∧ s.warm.seq = s.seq

instance (s : State) (fab blob : ℕ) : Decidable (rtElfWarmUsable s fab blob) :=
  inferInstanceAs (Decidable (_ ∧ _ ∧ _ ∧ _ ∧ _ ∧ _ ∧ _ ∧ _))

/-- `rt_plan_cache_hit`, with what it finds. -/
def rtPlanCacheHit (s : State) (c : PlanCall) : Option CtrlRowFabric :=
  s.cache.bind fun k =>
    if k.gen = s.gen ∧ k.fab = c.fab ∧ k.dev = c.dev ∧ k.shimCol = c.shimCol ∧ k.ctrlId = c.ctrlId ∧
      k.respCh = c.respCh ∧ k.ready = s.ready ∧ some k.rows = c.rows then some k.snap else none

/-- The cache after a plan that was not found in it. -/
def planCached (s : State) (c : PlanCall) (r : CtrlRowFabric × Bool) : Option PlanCache :=
  c.rows.bind fun rows =>
    if r.2 && r.1.dedicatedShim && decide (rows.length ≤ ACR_MAX_ROWS) then
      some ⟨s.gen, c.fab, c.dev, c.shimCol, c.ctrlId, c.respCh, s.ready, rows, r.1⟩ else none

/-- `__Runtime_ctrl_plan_init`. -/
def runtimeCtrlPlanInit (s : State) (c : PlanCall) : State :=
  match rtPlanCacheHit s c with
  | some snap => { s with fabs := Function.update s.fabs c.fab snap }
  | none =>
    let r := rtCtrlPlanInit c (s.fabs c.fab)
    { s with fabs := Function.update s.fabs c.fab r.1, cache := planCached s c r }

/-! ### Loads -/

/-- The return codes a load tells apart. -/
inductive LoadRc where
  | ok
  | err
  | invalidArgs
  deriving DecidableEq

/-- What the hardware and the heap add to a load: the code of the transfer, the memory a
failed transfer leaves, the block for the warm body, the memory after a fallback load. -/
structure LoadEnv where
  rc : LoadRc
  mem : Mem
  heap : Option (ℕ → ℕ)
  jit : Mem

section Loads

variable (d : CpeDev) (blobs : ℕ → Blob)

/-- The checks of `rt_ctrl_load_elf_aot` on the active blob. -/
def aotAccepts (s : State) (fab : ℕ) : Prop :=
  s.pkt ≠ 0 ∧ blobHdrBytes ≤ s.pktBytes ∧
    (blobs s.pkt).magic = RT_CPE_MAGIC ∧ (blobs s.pkt).version = RT_CPE_VERSION ∧
    (blobs s.pkt).fingerprint = rtCpeFingerprint d (blobs s.pkt).streamId ∧
    (blobs s.pkt).streamId = Control.ACR_ID_BCAST ∧ (blobs s.pkt).nresp = rtCtrlFabricTiles (s.fabs fab) ∧
    (d.checkerboard = true → ∀ r ∈ (s.fabs fab).rows.head?,
      (blobs s.pkt).encTile = (r.colLo <<< 16) ||| r.row) ∧
    blobHdrBytes + (blobs s.pkt).bodyWords * 4 ≤ s.pktBytes

instance (s : State) (fab : ℕ) : Decidable (aotAccepts d blobs s fab) := by
  unfold aotAccepts
  infer_instance

/-- The body an ahead-of-time load sends. -/
def sentWords (s : State) (fab : ℕ) : List ℕ :=
  match s.warm.body with
  | some w => if rtElfWarmUsable s fab s.pkt then w.words
    else (List.range (blobs s.pkt).bodyWords).map (blobs s.pkt).word
  | none => (List.range (blobs s.pkt).bodyWords).map (blobs s.pkt).word

/-- The memory after a transfer: every tile of the fabric carries the accesses out. Words
that are no accesses leave whatever they leave. -/
def memSent (s : State) (fab : ℕ) (o : LoadEnv) : Mem :=
  match o.rc, walk (sentWords blobs s fab) with
  | .ok, some accs => fun t => if t ∈ s.tiles fab then run (accs.flatMap Access.writes) (s.mem t) else s.mem t
  | _, _ => o.mem

/-- `rt_elf_warm_build` on the active blob. -/
def warmBuild (s : State) (o : LoadEnv) : Option Out :=
  o.heap.bind fun buf => rtElfWarmBuild d (blobs s.pkt).full buf ((blobs s.pkt).bodyWords + 1)

/-- The record armed for the active blob with a body. -/
def armed (s : State) (fab : ℕ) (body : Option Out) : ElfWarm :=
  ⟨s.pkt, fab, (s.fabs fab).dev, s.gen, s.seq, true, body⟩

/-- The record after a transfer: armed again if it succeeded and there is a warm body, or
was one for this blob. -/
def rearm (s : State) (fab : ℕ) (o : LoadEnv) : ElfWarm :=
  if o.rc = .ok then
    if s.warm.blob = s.pkt then armed s fab s.warm.body
    else match warmBuild d blobs s o with
      | some w => armed s fab (some w)
      | none => { s.warm with ok := false, body := none }
  else { s.warm with ok := false }

/-- `rt_ctrl_load_elf_aot` on a blob that is accepted. -/
def rtCtrlLoadElfAot (s : State) (fab : ℕ) (o : LoadEnv) : State :=
  { s with warm := rearm d blobs s fab o, mem := memSent blobs s fab o }

def jitLoad (s : State) (o : LoadEnv) : State := { s with seq := u32 (s.seq + 1), mem := o.jit }

/-- The fabric is one that a load goes through. -/
def loadable (s : State) (fab : ℕ) : Prop := fab ≠ 0 ∧ (s.fabs fab).dev ≠ 0 ∧ (s.fabs fab).rows ≠ []

instance (s : State) (fab : ℕ) : Decidable (loadable s fab) := inferInstanceAs (Decidable (_ ∧ _ ∧ _))

/-- `rt_ctrl_load_elf`: ahead of time if that is possible, otherwise at run time. -/
def rtCtrlLoadElf (s : State) (fab : ℕ) (o : LoadEnv) : State :=
  if loadable s fab then
    if s.ready = true ∧ aotAccepts d blobs s fab then
      if o.rc = .invalidArgs then jitLoad (rtCtrlLoadElfAot d blobs s fab o) o
      else rtCtrlLoadElfAot d blobs s fab o
    else jitLoad s o
  else s

/-! ### Runs -/

/-- What happens to the runtime. Direct loads count twice where they skip empty segments;
a kernel writes everything but program memory. -/
inductive Event where
  | plan (c : PlanCall)
  | setPkt (blob bytes : ℕ)
  | enable (on : Bool)
  | load (fab : ℕ) (o : LoadEnv)
  | direct (skipBss : Bool) (m : Mem)
  | partition (startCol : ℕ → ℕ) (ready : Bool) (m : Mem)
  | kernel (m : Mem)

def step (s : State) : Event → State
  | .plan c => runtimeCtrlPlanInit s c
  | .setPkt blob bytes => { s with pkt := blob, pktBytes := u32 bytes }
  | .enable on => { s with warmEnabled := on }
  | .load fab o => rtCtrlLoadElf d blobs s fab o
  | .direct skipBss m => { s with seq := u32 (s.seq + if skipBss then 2 else 1), mem := m }
  | .partition startCol ready m =>
    { s with gen := u32 (s.gen + 1), startCol := startCol, ready := ready, mem := m }
  | .kernel m => { s with mem := fun t a => if InProgMem d a then s.mem t a else m t a }

def exec (s : State) (es : List Event) : State := es.foldl (step d blobs) s

/-- A memory holds the program of a blob: what its body leaves in program memory. -/
def HoldsProg (b : Blob) (m : ℕ → ℕ) : Prop :=
  ∀ a, InProgMem d a → ∀ v, lastTo a ((accessesOf b.full).flatMap Access.writes) = some v → m a = v

/-- **Leaving program memory out is sound**: whenever the test passes, every tile of the
fabric holds the program of the blob. -/
def WarmSound (s : State) : Prop :=
  ∀ fab blob, rtElfWarmUsable s fab blob → ∀ t ∈ s.tiles fab, HoldsProg d (blobs blob) (s.mem t)

end Loads

/-! ### Tiles that a full load reached -/

section Fresh

variable (d : CpeDev) (blobs : ℕ → Blob)

/-- What a warm body keeps of a body does not change the program it leaves. -/
def KeepsProg (b : Blob) : Prop :=
  ∀ a, InProgMem d a → lastTo a ((keptAccs d (accessesOf b.full)).flatMap Access.writes) = none ∨
    lastTo a ((keptAccs d (accessesOf b.full)).flatMap Access.writes) =
      lastTo a ((accessesOf b.full).flatMap Access.writes)

/-- Of the tiles `F` that hold the program of the armed blob, those that still do after an
event, and the new ones: a full load reaches the tiles of its fabric, a warm one keeps
what is there, and every other load or re-initialisation may overwrite everything. -/
def freshStep (s : State) (F : Set (ℕ × ℕ)) : Event → Set (ℕ × ℕ)
  | .load fab o =>
    if loadable s fab then
      if s.ready = true ∧ aotAccepts d blobs s fab ∧ o.rc = .ok then
        if rtElfWarmUsable s fab s.pkt then {t | t ∈ F ∧ KeepsProg d (blobs s.pkt)} else {t | t ∈ s.tiles fab}
      else ∅
    else F
  | .direct _ _ => ∅
  | .partition _ _ _ => ∅
  | _ => F

/-- The tiles that the last full load reached and that nothing else has written since. -/
def fresh (s : State) (F : Set (ℕ × ℕ)) : List Event → Set (ℕ × ℕ)
  | [] => F
  | e :: es => fresh (step d blobs s e) (freshStep d blobs s F e) es

/-- The warm body belongs to the blob of the record, and while the record is armed the
tiles `F` hold the program of that blob. -/
structure Held (s : State) (F : Set (ℕ × ℕ)) : Prop where
  body : ∀ w, s.warm.body = some w →
    ∃ buf, rtElfWarmBuild d (blobs s.warm.blob).full buf ((blobs s.warm.blob).bodyWords + 1) = some w
  prog : s.warm.ok = true → ∀ t ∈ F, HoldsProg d (blobs s.warm.blob) (s.mem t)

end Fresh

section Run

variable {d : CpeDev} {blobs : ℕ → Blob} {s : State} {F : Set (ℕ × ℕ)} {fab : ℕ} {o : LoadEnv}

theorem Held.of_same {s' : State} (h : Held d blobs s F) (hwarm : s'.warm = s.warm)
    (hmem : ∀ t a, InProgMem d a → s'.mem t a = s.mem t a) : Held d blobs s' F := by
  refine ⟨?_, ?_⟩
  · rw [hwarm]
    exact h.body
  · rw [hwarm]
    intro hok t ht a ha v hv
    rw [hmem t a ha]
    exact h.prog hok t ht a ha v hv

theorem Held.of_empty {s' : State} (h : Held d blobs s F) (hwarm : s'.warm = s.warm) : Held d blobs s' ∅ := by
  refine ⟨?_, fun _ t ht => absurd ht (Set.notMem_empty t)⟩
  rw [hwarm]
  exact h.body

theorem plan_warm (s : State) (c : PlanCall) : (runtimeCtrlPlanInit s c).warm = s.warm := by
  unfold runtimeCtrlPlanInit
  cases rtPlanCacheHit s c <;> rfl

theorem plan_mem (s : State) (c : PlanCall) : (runtimeCtrlPlanInit s c).mem = s.mem := by
  unfold runtimeCtrlPlanInit
  cases rtPlanCacheHit s c <;> rfl

theorem holdsProg_run {b : Blob} {accs : List Access}
    (hwalk : walk ((List.range b.bodyWords).map b.word) = some accs)
    (m : ℕ → ℕ) : HoldsProg d b (run (accs.flatMap Access.writes) m) := by
  intro a _ v hv
  have haccs : accessesOf b.full = accs := by
    rw [accessesOf, Blob.full, hwalk, getD_some]
  rw [haccs] at hv
  rw [run_apply, hv, getD_some]

theorem holdsProg_of_unread {b : Blob} (hwalk : walk ((List.range b.bodyWords).map b.word) = none)
    (m : ℕ → ℕ) :
    HoldsProg d b m := by
  intro a _ v hv
  have haccs : accessesOf b.full = [] := by
    rw [accessesOf, Blob.full, hwalk, getD_none]
  rw [haccs] at hv
  cases hv

theorem sentWords_full (hcold : ¬rtElfWarmUsable s fab s.pkt) :
    sentWords blobs s fab = (List.range (blobs s.pkt).bodyWords).map (blobs s.pkt).word := by
  unfold sentWords
  cases s.warm.body with
  | none => rfl
  | some w => exact if_neg hcold

theorem sentWords_warm {w : Out} (hbody : s.warm.body = some w) (huse : rtElfWarmUsable s fab s.pkt) :
    sentWords blobs s fab = w.words := by
  unfold sentWords
  rw [hbody]
  exact if_pos huse

/-- **A full load** leaves the program of the blob on every tile of the fabric. -/
theorem memSent_full (hok : o.rc = .ok) (hcold : ¬rtElfWarmUsable s fab s.pkt) {t : ℕ × ℕ}
    (ht : t ∈ s.tiles fab) :
    HoldsProg d (blobs s.pkt) (memSent blobs s fab o t) := by
  cases hwalk : walk ((List.range (blobs s.pkt).bodyWords).map (blobs s.pkt).word) with
  | none => exact holdsProg_of_unread hwalk _
  | some accs =>
    have hsent : memSent blobs s fab o t = run (accs.flatMap Access.writes) (s.mem t) := by
      unfold memSent
      rw [hok, sentWords_full hcold, hwalk]
      exact if_pos ht
    rw [hsent]
    exact holdsProg_run hwalk _

/-- **A warm load** keeps the program of the blob where it is, on the fabric or off it. -/
theorem memSent_warm (hheld : Held d blobs s F) (hok : o.rc = .ok) (huse : rtElfWarmUsable s fab s.pkt)
    (hkeeps : KeepsProg d (blobs s.pkt)) {t : ℕ × ℕ} (hprog : HoldsProg d (blobs s.pkt) (s.mem t)) :
    HoldsProg d (blobs s.pkt) (memSent blobs s fab o t) := by
  have hblob : s.warm.blob = s.pkt := huse.2.2.2.1
  obtain ⟨w, hbody⟩ := isSome_iff_exists.1 huse.2.2.1
  obtain ⟨buf, hbuild⟩ := hheld.body w hbody
  rw [hblob] at hbuild
  obtain ⟨accs, hfull, hwarm⟩ := warm_spec (blobs s.pkt).bodyWords_lt hbuild
  have haccs : accessesOf (blobs s.pkt).full = accs := by rw [accessesOf, hfull, getD_some]
  have hsent : memSent blobs s fab o t =
      if t ∈ s.tiles fab then run ((keptAccs d accs).flatMap Access.writes) (s.mem t) else s.mem t := by
    unfold memSent
    rw [hok, sentWords_warm hbody huse, hwarm]
  rw [hsent]
  split
  · intro a ha v hv
    rw [run_apply]
    have hkept := hkeeps a ha
    rw [haccs] at hkept
    rcases hkept with hnone | hsame
    · rw [hnone]
      exact hprog a ha v hv
    · rw [haccs] at hv
      rw [hsame, hv, getD_some]
  · exact hprog

theorem rearm_cases (d : CpeDev) (blobs : ℕ → Blob) (s : State) (fab : ℕ) (o : LoadEnv) :
    (o.rc = .ok ∧ s.warm.blob = s.pkt ∧ rearm d blobs s fab o = armed s fab s.warm.body) ∨
    (o.rc = .ok ∧ ∃ w buf, rtElfWarmBuild d (blobs s.pkt).full buf ((blobs s.pkt).bodyWords + 1) = some w ∧
      s.warm.blob ≠ s.pkt ∧ rearm d blobs s fab o = armed s fab (some w)) ∨
    (o.rc = .ok ∧ s.warm.blob ≠ s.pkt ∧ rearm d blobs s fab o = { s.warm with ok := false, body := none }) ∨
    (o.rc ≠ .ok ∧ rearm d blobs s fab o = { s.warm with ok := false }) := by
  unfold rearm
  by_cases hok : o.rc = .ok
  · rw [if_pos hok]
    by_cases hblob : s.warm.blob = s.pkt
    · rw [if_pos hblob]
      exact .inl ⟨hok, hblob, rfl⟩
    · rw [if_neg hblob]
      cases hbuild : warmBuild d blobs s o with
      | none => exact .inr (.inr (.inl ⟨hok, hblob, rfl⟩))
      | some w =>
        obtain ⟨buf, _, hbuf⟩ := bind_eq_some_iff.1 hbuild
        exact .inr (.inl ⟨hok, w, buf, hbuf, hblob, rfl⟩)
  · rw [if_neg hok]
    exact .inr (.inr (.inr ⟨hok, rfl⟩))

/-- The warm body belongs to the blob of the record after a transfer too. -/
theorem rearm_body (h : Held d blobs s F) : ∀ w, (rearm d blobs s fab o).body = some w →
    ∃ buf, rtElfWarmBuild d (blobs (rearm d blobs s fab o).blob).full buf
      ((blobs (rearm d blobs s fab o).blob).bodyWords + 1) = some w := by
  intro w hw
  rcases rearm_cases d blobs s fab o with ⟨_, hblob, hrec⟩ | ⟨_, w', buf, hbuild, _, hrec⟩
    | ⟨_, _, hrec⟩ | ⟨_, hrec⟩
  · rw [hrec] at hw ⊢
    have hbody := h.body w hw
    rw [hblob] at hbody
    exact hbody
  · rw [hrec] at hw ⊢
    obtain rfl := Option.some.inj hw
    exact ⟨buf, hbuild⟩
  · rw [hrec] at hw
    exact nomatch hw
  · rw [hrec] at hw ⊢
    exact h.body w hw

/-- A record that is armed after a transfer is armed by it, for the active blob. -/
theorem rearm_ok (hok : (rearm d blobs s fab o).ok = true) :
    o.rc = .ok ∧ (rearm d blobs s fab o).blob = s.pkt ∧ (rearm d blobs s fab o).fab = fab ∧
      (rearm d blobs s fab o).gen = s.gen ∧ (rearm d blobs s fab o).seq = s.seq := by
  rcases rearm_cases d blobs s fab o with ⟨hrc, _, hrec⟩ | ⟨hrc, w', buf, _, _, hrec⟩ | ⟨_, _, hrec⟩
    | ⟨_, hrec⟩
  · rw [hrec]
    exact ⟨hrc, rfl, rfl, rfl, rfl⟩
  · rw [hrec]
    exact ⟨hrc, rfl, rfl, rfl, rfl⟩
  · rw [hrec] at hok
    exact nomatch hok
  · rw [hrec] at hok
    exact nomatch hok

/-- The tiles kept by an ahead-of-time load that succeeds. -/
def freshAot (d : CpeDev) (blobs : ℕ → Blob) (s : State) (F : Set (ℕ × ℕ)) (fab : ℕ) : Set (ℕ × ℕ) :=
  if rtElfWarmUsable s fab s.pkt then {t | t ∈ F ∧ KeepsProg d (blobs s.pkt)} else {t | t ∈ s.tiles fab}

theorem aot_held (h : Held d blobs s F) :
    Held d blobs (rtCtrlLoadElfAot d blobs s fab o) (if o.rc = .ok then freshAot d blobs s F fab else ∅) := by
  refine ⟨rearm_body h, ?_⟩
  intro hok t ht
  obtain ⟨hrc, hblob, _⟩ := rearm_ok hok
  have hgoal : HoldsProg d (blobs s.pkt) (memSent blobs s fab o t) := by
    rw [if_pos hrc, freshAot] at ht
    by_cases huse : rtElfWarmUsable s fab s.pkt
    · rw [if_pos huse] at ht
      obtain ⟨hF, hkeeps⟩ := ht
      have hprog := h.prog huse.2.1 t hF
      rw [huse.2.2.2.1] at hprog
      exact memSent_warm h hrc huse hkeeps hprog
    · rw [if_neg huse] at ht
      exact memSent_full hrc huse ht
  rw [← hblob] at hgoal
  exact hgoal

theorem load_cases (d : CpeDev) (blobs : ℕ → Blob) (s : State) (F : Set (ℕ × ℕ)) (fab : ℕ) (o : LoadEnv) :
    (rtCtrlLoadElf d blobs s fab o = s ∧ freshStep d blobs s F (.load fab o) = F) ∨
    (rtCtrlLoadElf d blobs s fab o = jitLoad s o ∧ freshStep d blobs s F (.load fab o) = ∅) ∨
    (rtCtrlLoadElf d blobs s fab o = jitLoad (rtCtrlLoadElfAot d blobs s fab o) o ∧ o.rc ≠ .ok ∧
      freshStep d blobs s F (.load fab o) = ∅) ∨
    (rtCtrlLoadElf d blobs s fab o = rtCtrlLoadElfAot d blobs s fab o ∧
      freshStep d blobs s F (.load fab o) = if o.rc = .ok then freshAot d blobs s F fab else ∅) := by
  unfold rtCtrlLoadElf freshStep
  by_cases hload : loadable s fab
  · rw [if_pos hload]
    dsimp only
    rw [if_pos hload]
    by_cases haot : s.ready = true ∧ aotAccepts d blobs s fab
    · rw [if_pos haot]
      by_cases hinv : o.rc = .invalidArgs
      · rw [if_pos hinv]
        have hrc : o.rc ≠ .ok := by
          rw [hinv]
          exact LoadRc.noConfusion
        exact .inr (.inr (.inl ⟨rfl, hrc, if_neg fun h => hrc h.2.2⟩))
      · rw [if_neg hinv]
        refine .inr (.inr (.inr ⟨rfl, ?_⟩))
        by_cases hrc : o.rc = .ok
        · rw [if_pos hrc, if_pos ⟨haot.1, haot.2, hrc⟩, freshAot]
        · rw [if_neg hrc, if_neg fun h => hrc h.2.2]
    · rw [if_neg haot]
      exact .inr (.inl ⟨rfl, if_neg fun h => haot ⟨h.1, h.2.1⟩⟩)
  · rw [if_neg hload]
    exact .inl ⟨rfl, if_neg hload⟩

/-- **One event** keeps what is known of the tiles. -/
theorem step_held (h : Held d blobs s F) (e : Event) :
    Held d blobs (step d blobs s e) (freshStep d blobs s F e) := by
  cases e with
  | plan c => exact h.of_same (plan_warm s c) fun t a _ => congrFun (congrFun (plan_mem s c) t) a
  | setPkt blob bytes => exact h.of_same rfl fun _ _ _ => rfl
  | enable on => exact h.of_same rfl fun _ _ _ => rfl
  | direct skipBss m => exact h.of_empty rfl
  | partition startCol ready m => exact h.of_empty rfl
  | kernel m => exact h.of_same rfl fun t a ha => if_pos ha
  | load fab o =>
    rw [step]
    rcases load_cases d blobs s F fab o with ⟨hs, hF⟩ | ⟨hs, hF⟩ | ⟨hs, _, hF⟩ | ⟨hs, hF⟩
    · rw [hs, hF]
      exact h
    · rw [hs, hF]
      exact h.of_empty rfl
    · rw [hs, hF]
      exact (aot_held h).of_empty rfl
    · rw [hs, hF]
      exact aot_held h

/-- **A run**: the tiles that a full load reached and nothing has written since hold the
program of the armed blob. -/
theorem exec_held (h : Held d blobs s F) (es : List Event) :
    Held d blobs (exec d blobs s es) (fresh d blobs s F es) := by
  induction es generalizing s F with
  | nil => exact h
  | cons e es ih => exact ih (step_held h e)

theorem init_held (m : Mem) : Held d blobs (init m) ∅ := by
  refine ⟨?_, ?_⟩
  · intro w hw
    exact nomatch hw
  · intro hok
    exact nomatch hok

end Run

/-! ### Runs whose plans do not move -/

section Steady

variable {d : CpeDev} {blobs : ℕ → Blob} {s : State} {F : Set (ℕ × ℕ)} {fab : ℕ} {o : LoadEnv}

/-- A plan puts a tile behind the pointer of the armed fabric that was not there. -/
def Moves (s : State) (c : PlanCall) : Prop :=
  s.warm.ok = true ∧ ∃ t ∈ (runtimeCtrlPlanInit s c).tiles s.warm.fab, t ∉ s.tiles s.warm.fab

/-- No plan of a run moves the armed fabric. -/
def Steady (d : CpeDev) (blobs : ℕ → Blob) (s : State) : List Event → Prop
  | [] => True
  | e :: es => (∀ c, e = .plan c → ¬Moves s c) ∧ Steady d blobs (step d blobs s e) es

/-- An event that a warm reload survives: a plan does not move the armed fabric, a load is of
a blob whose warm body leaves its program as it is, and the counters do not come round. -/
structure StepKeeps (d : CpeDev) (blobs : ℕ → Blob) (s : State) (e : Event) : Prop where
  plan : ∀ c, e = .plan c → ¬Moves s c
  load : ∀ fab o, e = .load fab o → KeepsProg d (blobs s.pkt)
  gen : s.gen + 1 < 2 ^ 32
  seq : s.seq + 2 < 2 ^ 32

/-- All events of a run are such. -/
def StepsKeep (d : CpeDev) (blobs : ℕ → Blob) (s : State) : List Event → Prop
  | [] => True
  | e :: es => StepKeeps d blobs s e ∧ StepsKeep d blobs (step d blobs s e) es

/-- The counters of the record are behind those of the runtime, and while they are level
all tiles of the armed fabric are fresh. -/
structure Covered (s : State) (F : Set (ℕ × ℕ)) : Prop where
  gen : s.warm.gen ≤ s.gen
  seq : s.warm.seq ≤ s.seq
  tiles : s.warm.ok = true → s.warm.gen = s.gen → s.warm.seq = s.seq → ∀ t ∈ s.tiles s.warm.fab, t ∈ F

theorem plan_counters (s : State) (c : PlanCall) :
    (runtimeCtrlPlanInit s c).gen = s.gen ∧ (runtimeCtrlPlanInit s c).seq = s.seq := by
  unfold runtimeCtrlPlanInit
  cases rtPlanCacheHit s c <;> exact ⟨rfl, rfl⟩

/-- A load other than ahead of time puts the counter past the record. -/
theorem Covered.jit (hgen : s.warm.gen ≤ s.gen) (hseq : s.warm.seq ≤ s.seq) (hroom : s.seq + 1 < 2 ^ 32) :
    Covered (jitLoad s o) ∅ := by
  have hnext : (jitLoad s o).seq = s.seq + 1 := Nat.mod_eq_of_lt hroom
  refine ⟨hgen, ?_, ?_⟩
  · rw [hnext]
    exact Nat.le_succ_of_le hseq
  · intro _ _ hlevel
    rw [hnext] at hlevel
    have hrec : (jitLoad s o).warm.seq ≤ s.seq := hseq
    omega

theorem rearm_counters (h : Covered s F) :
    (rearm d blobs s fab o).gen ≤ s.gen ∧ (rearm d blobs s fab o).seq ≤ s.seq := by
  rcases rearm_cases d blobs s fab o with ⟨_, _, hrec⟩ | ⟨_, w', buf, _, _, hrec⟩ | ⟨_, _, hrec⟩
    | ⟨_, hrec⟩ <;>
    rw [hrec]
  · exact ⟨le_refl _, le_refl _⟩
  · exact ⟨le_refl _, le_refl _⟩
  · exact ⟨h.gen, h.seq⟩
  · exact ⟨h.gen, h.seq⟩

theorem aot_covered (hkeeps : KeepsProg d (blobs s.pkt)) (h : Covered s F) :
    Covered (rtCtrlLoadElfAot d blobs s fab o) (if o.rc = .ok then freshAot d blobs s F fab else ∅) := by
  obtain ⟨hgen, hseq⟩ := @rearm_counters d blobs s F fab o h
  refine ⟨hgen, hseq, ?_⟩
  intro hok _ _ t ht
  obtain ⟨hrc, _, hfab, _⟩ := rearm_ok hok
  have ht' : t ∈ s.tiles fab := by
    rw [← hfab]
    exact ht
  rw [if_pos hrc, freshAot]
  by_cases huse : rtElfWarmUsable s fab s.pkt
  · rw [if_pos huse]
    obtain ⟨_, hok', _, _, hsame, _, hg, hq⟩ := huse
    rw [← hsame] at ht'
    exact ⟨h.tiles hok' hg hq t ht', hkeeps⟩
  · rw [if_neg huse]
    exact ht'

/-- **One event** leaves no tile of the armed fabric behind. -/
theorem step_covered (h : Covered s F) {e : Event} (hstep : StepKeeps d blobs s e) :
    Covered (step d blobs s e) (freshStep d blobs s F e) := by
  obtain ⟨hsteady, hkeeps, hgen, hseq⟩ := hstep
  cases e with
  | setPkt blob bytes => exact ⟨h.gen, h.seq, h.tiles⟩
  | enable on => exact ⟨h.gen, h.seq, h.tiles⟩
  | kernel m => exact ⟨h.gen, h.seq, h.tiles⟩
  | plan c =>
    show Covered (runtimeCtrlPlanInit s c) F
    obtain ⟨hgen', hseq'⟩ := plan_counters s c
    constructor <;> rw [plan_warm]
    · rw [hgen']
      exact h.gen
    · rw [hseq']
      exact h.seq
    · rw [hgen', hseq']
      intro hok hg hq t ht
      by_contra hout
      exact hsteady c rfl ⟨hok, t, ht, fun hin => hout (h.tiles hok hg hq t hin)⟩
  | direct skipBss m =>
    have hnext : (step d blobs s (.direct skipBss m)).seq = s.seq + if skipBss then 2 else 1 := by
      apply Nat.mod_eq_of_lt
      split <;> omega
    have hpast : s.warm.seq < (step d blobs s (.direct skipBss m)).seq := by
      have hrec := h.seq
      rw [hnext]
      split <;> omega
    exact ⟨h.gen, hpast.le, fun _ _ hlevel => absurd hlevel hpast.ne⟩
  | partition startCol ready m =>
    have hpast : s.warm.gen < (step d blobs s (.partition startCol ready m)).gen := by
      have hnext : (step d blobs s (.partition startCol ready m)).gen = s.gen + 1 := Nat.mod_eq_of_lt hgen
      rw [hnext]
      exact Nat.lt_succ_of_le h.gen
    exact ⟨hpast.le, h.seq, fun _ hlevel => absurd hlevel hpast.ne⟩
  | load fab o =>
    rw [step]
    have hroom : s.seq + 1 < 2 ^ 32 := Nat.lt_of_succ_lt hseq
    rcases load_cases d blobs s F fab o with ⟨hs, hF⟩ | ⟨hs, hF⟩ | ⟨hs, _, hF⟩ | ⟨hs, hF⟩
    · rw [hs, hF]
      exact h
    · rw [hs, hF]
      exact Covered.jit h.gen h.seq hroom
    · rw [hs, hF]
      obtain ⟨hg, hq⟩ := @rearm_counters d blobs s F fab o h
      exact Covered.jit hg hq hroom
    · rw [hs, hF]
      exact aot_covered (hkeeps fab o rfl) h

theorem step_counters (d : CpeDev) (blobs : ℕ → Blob) (s : State) (e : Event) :
    (step d blobs s e).gen ≤ s.gen + 1 ∧ (step d blobs s e).seq ≤ s.seq + 2 := by
  have hnear : ∀ s' : State, s'.gen = s.gen → s'.seq = s.seq → s'.gen ≤ s.gen + 1 ∧ s'.seq ≤ s.seq + 2 := by
    intro s' hg hq
    omega
  cases e with
  | setPkt blob bytes => exact hnear _ rfl rfl
  | enable on => exact hnear _ rfl rfl
  | kernel m => exact hnear _ rfl rfl
  | plan c => exact hnear _ (plan_counters s c).1 (plan_counters s c).2
  | direct skipBss m =>
    refine ⟨Nat.le_succ _, (Nat.mod_le _ _).trans ?_⟩
    split <;> omega
  | partition startCol ready m => exact ⟨Nat.mod_le _ _, Nat.le_add_right _ _⟩
  | load fab o =>
    rw [step]
    have hjit : ∀ s' : State, s'.gen = s.gen → s'.seq = s.seq →
        (jitLoad s' o).gen ≤ s.gen + 1 ∧ (jitLoad s' o).seq ≤ s.seq + 2 := by
      intro s' hg hq
      have hseq : (jitLoad s' o).seq ≤ s'.seq + 1 := Nat.mod_le _ _
      exact ⟨hg.le.trans (Nat.le_succ _), by omega⟩
    rcases load_cases d blobs s ∅ fab o with ⟨hs, _⟩ | ⟨hs, _⟩ | ⟨hs, _⟩ | ⟨hs, _⟩ <;> rw [hs]
    · exact hnear s rfl rfl
    · exact hjit s rfl rfl
    · exact hjit _ rfl rfl
    · exact hnear _ rfl rfl

theorem exec_covered (h : Covered s F) {es : List Event} (hsteps : StepsKeep d blobs s es) :
    Covered (exec d blobs s es) (fresh d blobs s F es) := by
  induction es generalizing s F with
  | nil => exact h
  | cons e es ih => exact ih (step_covered h hsteps.1) hsteps.2

theorem init_covered (m : Mem) : Covered (init m) ∅ := ⟨Nat.zero_le _, le_refl _, nofun⟩

/-- Tiles that are covered and hold the program make the test sound. -/
theorem Covered.warmSound (hcov : Covered s F) (hheld : Held d blobs s F) : WarmSound d blobs s := by
  intro fab blob huse t ht
  obtain ⟨_, hok, _, hblob, hfab, _, hg, hq⟩ := huse
  rw [← hfab] at ht
  have hprog := hheld.prog hok t (hcov.tiles hok hg hq t ht)
  rw [hblob] at hprog
  exact hprog

theorem Steady.stepsKeep (hkeeps : ∀ b, KeepsProg d (blobs b)) {es : List Event}
    (hsteady : Steady d blobs s es)
    (hgen : s.gen + es.length < 2 ^ 32) (hseq : s.seq + 2 * es.length < 2 ^ 32) : StepsKeep d blobs s es := by
  induction es generalizing s with
  | nil => trivial
  | cons e es ih =>
    rw [List.length_cons] at hgen hseq
    have hmoved := step_counters d blobs s e
    refine ⟨⟨hsteady.1, fun _ _ _ => hkeeps s.pkt, by omega, by omega⟩, ih hsteady.2 ?_ ?_⟩
    · omega
    · omega

/-- **Warm reloads over runs.** In every run whose plans do not move the armed fabric, whose
loads are of blobs that keep their program and whose counters do not come round, leaving
program memory out is sound in the state that is reached. -/
theorem warm_sound (d : CpeDev) (blobs : ℕ → Blob) (m : Mem) (es : List Event)
    (hsteps : StepsKeep d blobs (init m) es) : WarmSound d blobs (exec d blobs (init m) es) :=
  (exec_covered (init_covered m) hsteps).warmSound (exec_held (init_held m) es)

/-- **While plans do not move** the armed fabric, the counters have room and what a warm
body keeps does not change the program, leaving program memory out is sound. -/
theorem warmSound_of_steady (hkeeps : ∀ b, KeepsProg d (blobs b)) {m : Mem} {es : List Event}
    (hsteady : Steady d blobs (init m) es) (hlen : 2 * es.length + 1 < 2 ^ 32) :
    WarmSound d blobs (exec d blobs (init m) es) := by
  have hgen : (init m).gen + es.length < 2 ^ 32 := by
    have hone : (init m).gen = 1 := rfl
    omega
  have hseq : (init m).seq + 2 * es.length < 2 ^ 32 := by
    have hzero : (init m).seq = 0 := rfl
    omega
  have hsteps := hsteady.stepsKeep hkeeps hgen hseq
  exact (exec_covered (init_covered m) hsteps).warmSound (exec_held (init_held m) es)

end Steady

/-- A blob for one tile whose body writes two words of program memory. -/
def twoWords : Blob where
  magic := RT_CPE_MAGIC
  version := RT_CPE_VERSION
  fingerprint := rtCpeFingerprint smallDev Control.ACR_ID_BCAST
  streamId := Control.ACR_ID_BCAST
  nresp := 1
  bodyWords := 6
  encTile := 0
  word := fun i => [16, 0x20000, 7, 16, 0x20004, 8].getD i 0
  bodyWords_lt := by decide

/-- A plan of one tile in column 1 of a row. -/
def planTile (row : ℕ) : PlanCall := ⟨1, 1, 0, -1, 0, some [⟨row, 1, 1⟩], fun _ => true, true⟩

/-- A load through row 3, after which the same fabric object is planned for row 4. -/
def movedPlan : List Event :=
  [.partition (fun _ => 0) true fun _ _ => 0, .plan (planTile 3), .setPkt 1 56,
    .load 1 ⟨.ok, fun _ _ => 0, some fun _ => 0, fun _ _ => 0⟩, .plan (planTile 4)]

/-- The test still passes, and the tile of row 4 holds nothing of the blob. -/
theorem not_warm_sound_moved :
    ¬WarmSound smallDev (fun _ => twoWords)
      (exec smallDev (fun _ => twoWords) (init fun _ _ => 0) movedPlan) := by
  intro h
  have huse : rtElfWarmUsable (exec smallDev (fun _ => twoWords) (init fun _ _ => 0) movedPlan) 1 1 := by
    decide +kernel
  have htile : (1, 4) ∈ (exec smallDev (fun _ => twoWords) (init fun _ _ => 0) movedPlan).tiles 1 := by
    decide +kernel
  have hlast : lastTo 0x20000 ((accessesOf twoWords.full).flatMap Access.writes) = some 7 := by decide +kernel
  have hseven := h 1 1 huse (1, 4) htile 0x20000 (by decide) 7 hlast
  have hzero : (exec smallDev (fun _ => twoWords) (init fun _ _ => 0) movedPlan).mem (1, 4) 0x20000 = 0 := by
    decide +kernel
  rw [hzero] at hseven
  exact absurd hseven (by decide)

theorem twoWords_keepsProg : KeepsProg smallDev twoWords := by
  intro a _
  have hkept : (keptAccs smallDev (accessesOf twoWords.full)).flatMap Access.writes = [(0x20004, 8)] := by
    decide +kernel
  have hall : (accessesOf twoWords.full).flatMap Access.writes = [(0x20000, 7), (0x20004, 8)] :=
    by decide +kernel
  rw [hkept, hall]
  by_cases ha : a = 0x20004 <;> simp [lastTo, ha, eq_comm]

/-- Up to the second plan, the test passes for a reason. -/
theorem warm_sound_unmoved :
    let s := exec smallDev (fun _ => twoWords) (init fun _ _ => 0) (movedPlan.take 4)
    rtElfWarmUsable s 1 1 ∧ WarmSound smallDev (fun _ => twoWords) s := by
  refine ⟨by decide +kernel, warm_sound _ _ _ _ ?_⟩
  have hkeeps : ∀ (s : State) (e : Event), (∀ c, e = .plan c → s.warm.ok = false) → s.gen ≤ 2 → s.seq = 0 →
      StepKeeps smallDev (fun _ => twoWords) s e := by
    intro s e hplan hgen hseq
    refine ⟨fun c hc hmoves => ?_, fun _ _ _ => twoWords_keepsProg, by omega, by omega⟩
    exact absurd hmoves.1 (by simp [hplan c hc])
  exact ⟨hkeeps _ _ nofun (by decide) rfl, hkeeps _ _ (fun _ _ => rfl) (by decide) rfl,
    hkeeps _ _ nofun (by decide) rfl, hkeeps _ _ nofun (by decide +kernel) (by decide +kernel), trivial⟩

theorem warmSound_of_steady_unmoved :
    let s := exec smallDev (fun _ => twoWords) (init fun _ _ => 0) (movedPlan.take 4)
    rtElfWarmUsable s 1 1 ∧ WarmSound smallDev (fun _ => twoWords) s := by
  refine ⟨by decide +kernel, warmSound_of_steady (fun _ => twoWords_keepsProg)
    ⟨nofun, ?_, nofun, nofun, trivial⟩
    (by decide)⟩
  rintro c _ ⟨hok, _⟩
  cases hok

end AieHlc.Elf
