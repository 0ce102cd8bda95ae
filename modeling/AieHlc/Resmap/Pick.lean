import AieHlc.Alloc.Grant
import Mathlib.Data.Nat.Bitwise
import Mathlib.Data.Set.Insert
import Mathlib.Tactic.Tauto

/-!
# Picking resources for a core trace

Model of the resource-map queries and of `resmap_pick_trace_resources` (`aie_runtime.c`). A
trace leaves its core by a stream channel to the south, passes every row below and ends in a
DMA channel of the MemTile. The map says what the data plane uses; what earlier traces use is
kept in two bit masks for each column.

* `Entry`, `resmapUsed`: the map and its queries.
* `resmapPickTraceResources`, `resmapClaimTrace`: one pick, and its claim.
* `run`: one setup after the other, each with its claim if the pick succeeds.
* `PickOk`: what a pick is free of in the map.
* **`trace_resources_distinct`**: over every run, picks are free in the map and do not collide.
-/

namespace AieHlc.Resmap

open Option List AieHlc.Alloc

variable {ch col : ℕ} {mask : ℕ → ℕ}

/-! ### The map -/

/-- The directions of the ports of a stream switch. -/
inductive Dir where
  | core
  | dma
  | ctrl
  | fifo
  | south
  | west
  | north
  | east
  | trace
  deriving DecidableEq

/-- A port of an entry: its direction may be missing. -/
structure PortRef where
  dir : Option Dir
  idx : ℤ

def PortRef.is (p : PortRef) (dir : Dir) (idx : ℤ) : Bool := p.dir = some dir ∧ p.idx = idx

/-- `AieResourceEntry`: a packet connection fills the first three ports, a circuit the others. -/
structure Entry where
  col : ℤ
  row : ℤ
  recv : PortRef
  dma : PortRef
  fwd : PortRef
  slave : PortRef
  master : PortRef
  recvPktid : ℤ
  dmaPktid : ℤ
  recvArbiter : ℤ
  dmaArbiter : ℤ
  fwdArbiter : ℤ

def Entry.masterIs (dir : Dir) (idx : ℤ) (e : Entry) : Bool := e.fwd.is dir idx || e.master.is dir idx

def Entry.slaveIs (dir : Dir) (idx : ℤ) (e : Entry) : Bool :=
  e.recv.is dir idx || e.dma.is dir idx || e.slave.is dir idx

def Entry.pktidIs (id : ℤ) (e : Entry) : Bool := e.recvPktid = id ∨ e.dmaPktid = id

/-- Only a port that is there has an arbiter. -/
def Entry.arbiterIs (arb : ℤ) (e : Entry) : Bool :=
  (e.recv.idx ≥ 0 ∧ e.recvArbiter = arb) ∨ (e.dma.idx ≥ 0 ∧ e.dmaArbiter = arb) ∨
    (e.fwd.idx ≥ 0 ∧ e.fwdArbiter = arb)

def Entry.dmaIs (ch : ℤ) (e : Entry) : Bool :=
  e.recv.is .dma ch || e.dma.is .dma ch || e.fwd.is .dma ch || e.slave.is .dma ch || e.master.is .dma ch

section Queries

variable (rm : List Entry) (col row : ℤ)

/-- Does some entry of the tile pass the test? -/
def resmapUsed (test : Entry → Bool) : Bool := rm.any fun e => (e.col = col ∧ e.row = row) && test e

def resmapMasterUsed (dir : Dir) (idx : ℤ) : Bool := resmapUsed rm col row (Entry.masterIs dir idx)

def resmapSlaveUsed (dir : Dir) (idx : ℤ) : Bool := resmapUsed rm col row (Entry.slaveIs dir idx)

def resmapPktidUsed (id : ℤ) : Bool := resmapUsed rm col row (Entry.pktidIs id)

def resmapArbiterUsed (arb : ℤ) : Bool := resmapUsed rm col row (Entry.arbiterIs arb)

def resmapDmaUsed (ch : ℤ) : Bool := resmapUsed rm col row (Entry.dmaIs ch)

end Queries

/-! ### The claims -/

def AIE_TRACE_CLAIM_COLS : ℤ := 64

/-- `s_trace_strm_claim` and `s_trace_s2mm_claim`: a mask of eight bits for each column. -/
structure Claims where
  strm : ℕ → ℕ
  s2mm : ℕ → ℕ

/-- The column has masks. -/
def HasClaims (col : ℤ) : Prop := col ≥ 0 ∧ col < AIE_TRACE_CLAIM_COLS

instance (col : ℤ) : Decidable (HasClaims col) := inferInstanceAs (Decidable (_ ∧ _))

/-- The bit of a channel in a column's mask; a column without masks has no claims. -/
def claimed (mask : ℕ → ℕ) (col : ℤ) (ch : ℕ) : Bool :=
  if HasClaims col then mask col.toNat &&& (1 <<< ch) ≠ 0 else false

def resmapStrmClaimed (c : Claims) (col : ℤ) (ch : ℕ) : Bool := claimed c.strm col ch

def resmapS2mmClaimed (c : Claims) (col : ℤ) (ch : ℕ) : Bool := claimed c.s2mm col ch

def addClaim (mask : ℕ → ℕ) (col : ℤ) (ch : ℕ) : ℕ → ℕ :=
  Function.update mask col.toNat (mask col.toNat ||| (1 <<< ch) % 256)

/-- `resmap_claim_trace`. -/
def resmapClaimTrace (c : Claims) (col : ℤ) (strm s2mm : ℕ) : Claims :=
  if HasClaims col then ⟨addClaim c.strm col strm, addClaim c.s2mm col s2mm⟩ else c

/-! ### One pick -/

section Pick

variable (rm : List Entry) (c : Claims) (col : ℤ) (srcRow mtRow : ℕ)

/-- The loop over the rows between the source and the MemTile, from row `r` down. -/
def passFree (ch : ℕ) : ℕ → Bool
  | 0 => true
  | r + 1 =>
    if r + 1 > mtRow then
      !(resmapSlaveUsed rm col (r + 1 : ℕ) .north ch || resmapMasterUsed rm col
        (r + 1 : ℕ) .south ch) && passFree ch r
    else true

def TRACE_STRM_CH_RANGE : ℕ := 4

def TRACE_ARB_MAX : ℕ := 7

/-- The stream channel is free from the source to the MemTile. The row counter has eight bits. -/
def strmFree (ch : ℕ) : Bool :=
  !(resmapStrmClaimed c col ch || resmapMasterUsed rm col srcRow .south ch) &&
    passFree rm col mtRow ch ((srcRow + 255) % 256) && !resmapSlaveUsed rm col mtRow .north ch

def s2mmFree (ch : ℕ) : Bool := !resmapS2mmClaimed c col ch && !resmapDmaUsed rm col mtRow ch

/-- The values a pick writes. -/
structure Pick where
  strm : ℕ
  s2mm : ℕ
  bd : ℕ
  pkt : ℕ
  arb : ℕ
  msel : ℕ
  mselen : ℕ

/-- `resmap_pick_trace_resources`. -/
def resmapPickTraceResources : Option Pick := do
  let strm ← (range TRACE_STRM_CH_RANGE).find? (strmFree rm c col srcRow mtRow)
  let s2mm ← (range TRACE_STRM_CH_RANGE).find? (s2mmFree rm c col mtRow)
  let pkt ← (range' 1 31).find? fun id : ℕ => !resmapPktidUsed rm col srcRow id
  let arb ← (range (TRACE_ARB_MAX + 1)).find? fun a : ℕ => !resmapArbiterUsed rm col srcRow a
  pure ⟨strm, s2mm, if s2mm % 2 = 0 then 4 + s2mm else 24 + s2mm, pkt, arb, 0, 1 <<< 0⟩

end Pick

/-! ### Runs -/

/-- A trace to set up: the tile of the core, and the row of the MemTile. Rows have eight bits. -/
structure TraceReq where
  col : ℕ
  srcRow : ℕ
  mtRow : ℕ
  srcRow_lt : srcRow < 256

/-- One setup: a pick, and its claim if there is one. -/
def setup (rm : List Entry) (c : Claims) (q : TraceReq) : Claims × List (TraceReq × Pick) :=
  match resmapPickTraceResources rm c q.col q.srcRow q.mtRow with
  | none => (c, [])
  | some p => (resmapClaimTrace c q.col p.strm p.s2mm, [(q, p)])

/-- Setups one after the other: the claims at the end, and what was picked for whom. -/
def run (rm : List Entry) : Claims → List TraceReq → Claims × List (TraceReq × Pick)
  | c, [] => (c, [])
  | c, q :: qs => ((run rm (setup rm c q).1 qs).1, (setup rm c q).2 ++ (run rm (setup rm c q).1 qs).2)

/-! ### What a pick is free of -/

/-- No entry of the tile passes the test. -/
def FreeAt (rm : List Entry) (col row : ℤ) (test : Entry → Bool) : Prop :=
  ∀ e ∈ rm, e.col = col → e.row = row → test e = false

/-- A stream channel is free on the way of a trace: to the south at the source, through every
row in between, and from the north at the MemTile. -/
structure StreamFree (rm : List Entry) (q : TraceReq) (ch : ℕ) : Prop where
  source : FreeAt rm q.col q.srcRow (Entry.masterIs .south ch)
  between : ∀ r : ℕ, q.mtRow < r → r < q.srcRow →
    FreeAt rm q.col r (Entry.slaveIs .north ch) ∧ FreeAt rm q.col r (Entry.masterIs .south ch)
  memTile : FreeAt rm q.col q.mtRow (Entry.slaveIs .north ch)

/-- A pick is free in the map, and its BD has the parity of its channel. -/
structure PickOk (rm : List Entry) (q : TraceReq) (p : Pick) : Prop where
  strm_lt : p.strm < 4
  s2mm_lt : p.s2mm < 4
  stream : StreamFree rm q p.strm
  s2mm : FreeAt rm q.col q.mtRow (Entry.dmaIs p.s2mm)
  parity : p.bd < 24 ↔ p.s2mm % 2 = 0
  bd_eq : p.bd = if p.s2mm % 2 = 0 then 4 + p.s2mm else 24 + p.s2mm
  pkt : FreeAt rm q.col q.srcRow (Entry.pktidIs p.pkt)
  arb : FreeAt rm q.col q.srcRow (Entry.arbiterIs p.arb)

section Free

variable {rm : List Entry} {c : Claims} {col row : ℤ} {q : TraceReq} {p : Pick}

theorem freeAt_of_unused {test : Entry → Bool} (h : resmapUsed rm col row test = false) :
    FreeAt rm col row test := by
  intro e he hcol hrow
  have hany := any_eq_false.1 h e he
  simpa [hcol, hrow] using hany

theorem passFree_spec {mtRow : ℕ} : ∀ {r : ℕ}, passFree rm col mtRow ch r = true → ∀ k, mtRow < k → k ≤ r →
    FreeAt rm col k (Entry.slaveIs .north ch) ∧ FreeAt rm col k (Entry.masterIs .south ch) := by
  intro r
  induction r with
  | zero =>
    intro _ k hk hle
    omega
  | succ r ih =>
    intro h k hk hle
    have hgt : r + 1 > mtRow := by omega
    rw [passFree, if_pos hgt, Bool.and_eq_true] at h
    rcases Nat.eq_or_lt_of_le hle with rfl | hlt
    · have hrow : resmapSlaveUsed rm col (r + 1 : ℕ) .north ch = false ∧
          resmapMasterUsed rm col (r + 1 : ℕ) .south ch = false := by simpa using h.1
      exact ⟨freeAt_of_unused hrow.1, freeAt_of_unused hrow.2⟩
    · exact ih h.2 k hk (by omega)

theorem strmFree_spec (h : strmFree rm c q.col q.srcRow q.mtRow ch = true) :
    resmapStrmClaimed c q.col ch = false ∧ StreamFree rm q ch := by
  have hlt := q.srcRow_lt
  simp only [strmFree, Bool.and_eq_true, Bool.not_eq_true', Bool.or_eq_false_iff] at h
  obtain ⟨⟨⟨hclaim, hsrc⟩, hpass⟩, hmt⟩ := h
  refine ⟨hclaim, freeAt_of_unused hsrc, ?_, freeAt_of_unused hmt⟩
  intro r hlow hhigh
  -- a row between the two is there only if the source is not in row 0, so the counter starts below it
  exact passFree_spec hpass r hlow (by omega)

/-- **What a pick is free of**, and that no earlier trace has claimed its channels. -/
theorem pick_spec (h : resmapPickTraceResources rm c q.col q.srcRow q.mtRow = some p) :
    resmapStrmClaimed c q.col p.strm = false ∧ resmapS2mmClaimed c q.col p.s2mm = false ∧ PickOk rm q p := by
  obtain ⟨strm, hstrm, h⟩ := bind_eq_some_iff.1 h
  obtain ⟨s2mm, hs2mm, h⟩ := bind_eq_some_iff.1 h
  obtain ⟨pkt, hpkt, h⟩ := bind_eq_some_iff.1 h
  obtain ⟨arb, harb, h⟩ := bind_eq_some_iff.1 h
  obtain rfl := some.inj h
  obtain ⟨hclaim, hstream⟩ := strmFree_spec (find?_some hstrm)
  have hs := find?_some hs2mm
  simp only [s2mmFree, Bool.and_eq_true, Bool.not_eq_true'] at hs
  have hp : resmapPktidUsed rm q.col q.srcRow pkt = false := by simpa using find?_some hpkt
  have ha : resmapArbiterUsed rm q.col q.srcRow arb = false := by simpa using find?_some harb
  have hlt₁ : strm < 4 := mem_range.1 (mem_of_find?_eq_some hstrm)
  have hlt₂ : s2mm < 4 := mem_range.1 (mem_of_find?_eq_some hs2mm)
  refine ⟨hclaim, hs.1, hlt₁, hlt₂, hstream, freeAt_of_unused hs.2, ?_, rfl, freeAt_of_unused hp,
    freeAt_of_unused ha⟩
  show (if s2mm % 2 = 0 then 4 + s2mm else 24 + s2mm) < 24 ↔ s2mm % 2 = 0
  split
  · omega
  · omega

end Free

/-! ### The claims as grants -/

section Claims

variable {rm : List Entry} {c : Claims} {q : TraceReq}

/-- The channels claimed in a mask of all columns. -/
def heldIn (mask : ℕ → ℕ) : Set (ℕ × ℕ) := {k | (mask k.1).testBit k.2 = true}

theorem claimed_eq (hcol : col < 64) : claimed mask col ch = (mask col).testBit ch := by
  have hhas : HasClaims col := by
    unfold HasClaims AIE_TRACE_CLAIM_COLS
    omega
  rw [claimed, if_pos hhas, Nat.one_shiftLeft, Int.toNat_natCast, Nat.and_two_pow]
  cases (mask col).testBit ch with
  | false => simp
  | true => simp

theorem heldIn_addClaim (hch : ch < 4) : heldIn (addClaim mask col ch) = insert (col, ch) (heldIn mask) := by
  have hbit : (1 <<< ch) % 256 = 2 ^ ch := by
    rw [Nat.one_shiftLeft]
    have hle : 2 ^ ch ≤ 2 ^ 3 := Nat.pow_le_pow_right (by decide) (by omega)
    exact Nat.mod_eq_of_lt (lt_of_le_of_lt hle (by decide))
  ext ⟨k, b⟩
  simp only [heldIn, addClaim, hbit, Int.toNat_natCast, Set.mem_ofPred_eq, Set.mem_insert_iff, Prod.mk.injEq]
  by_cases hk : k = col
  · subst hk
    rw [Function.update_self, Nat.testBit_or, Nat.testBit_two_pow]
    simp only [Bool.or_eq_true, decide_eq_true_eq, true_and]
    tauto
  · rw [Function.update_of_ne hk]
    simp [hk]

theorem resmapClaimTrace_eq (hcol : col < 64) (strm s2mm : ℕ) :
    resmapClaimTrace c col strm s2mm = ⟨addClaim c.strm col strm, addClaim c.s2mm col s2mm⟩ := by
  have hhas : HasClaims col := by
    unfold HasClaims AIE_TRACE_CLAIM_COLS
    omega
  exact if_pos hhas

theorem grants_addClaim {held : Claims → Set (ℕ × ℕ)} {c' : Claims} (hcol : col < 64) (hch : ch < 4)
    (hold : held c = heldIn mask) (hnew : held c' = heldIn (addClaim mask col ch))
    (hfree : claimed mask col ch = false) : Grants held c c' [(col, ch)] := by
  apply Grants.one
  · rw [claimed_eq hcol] at hfree
    rw [hold]
    intro hmem
    have hbit : (mask col).testBit ch = true := hmem
    rw [hfree] at hbit
    exact Bool.noConfusion hbit
  · rw [hnew, heldIn_addClaim hch, hold]

theorem setup_strm (hcol : q.col < 64) : Grants (fun c => heldIn c.strm) c (setup rm c q).1
    ((setup rm c q).2.map fun a => (a.1.col, a.2.strm)) := by
  unfold setup
  cases hpick : resmapPickTraceResources rm c q.col q.srcRow q.mtRow with
  | none => exact Grants.none (Set.Subset.refl _)
  | some p =>
    obtain ⟨hfree, _, hok⟩ := pick_spec hpick
    dsimp only
    rw [resmapClaimTrace_eq hcol]
    exact grants_addClaim hcol hok.strm_lt rfl rfl hfree

theorem setup_s2mm (hcol : q.col < 64) : Grants (fun c => heldIn c.s2mm) c (setup rm c q).1
    ((setup rm c q).2.map fun a => (a.1.col, a.2.s2mm)) := by
  unfold setup
  cases hpick : resmapPickTraceResources rm c q.col q.srcRow q.mtRow with
  | none => exact Grants.none (Set.Subset.refl _)
  | some p =>
    obtain ⟨_, hfree, hok⟩ := pick_spec hpick
    dsimp only
    rw [resmapClaimTrace_eq hcol]
    exact grants_addClaim hcol hok.s2mm_lt rfl rfl hfree

theorem run_grants {κ : Type} {held : Claims → Set κ} {key : TraceReq × Pick → κ}
    (hstep : ∀ c (q : TraceReq), q.col < 64 → Grants held c (setup rm c q).1 ((setup rm c q).2.map key)) :
    ∀ (qs : List TraceReq) (c : Claims), (∀ q ∈ qs, q.col < 64) →
      Grants held c (run rm c qs).1 ((run rm c qs).2.map key) := by
  intro qs
  induction qs with
  | nil => exact fun c _ => Grants.none (Set.Subset.refl _)
  | cons q qs ih =>
    intro c hcols
    have hhead := hstep c q (hcols q mem_cons_self)
    have htail := ih (setup rm c q).1 fun x hx => hcols x (mem_cons_of_mem _ hx)
    rw [run, map_append]
    exact hhead.trans htail

theorem run_pickOk : ∀ (qs : List TraceReq) (c : Claims), ∀ a ∈ (run rm c qs).2, PickOk rm a.1 a.2 := by
  intro qs
  induction qs with
  | nil =>
    intro c a ha
    cases ha
  | cons q qs ih =>
    intro c a ha
    rcases mem_append.1 ha with ha | ha
    · unfold setup at ha
      cases hpick : resmapPickTraceResources rm c q.col q.srcRow q.mtRow with
      | none =>
        rw [hpick] at ha
        cases ha
      | some p =>
        rw [hpick] at ha
        obtain rfl := mem_singleton.1 ha
        exact (pick_spec hpick).2.2
    · exact ih _ a ha

theorem PickOk.bd_inj {q' : TraceReq} {p p' : Pick} (h : PickOk rm q p) (h' : PickOk rm q' p')
    (heq : p.bd = p'.bd) :
    p.s2mm = p'.s2mm := by
  have hlt := h.s2mm_lt
  have hlt' := h'.s2mm_lt
  rw [h.bd_eq, h'.bd_eq] at heq
  by_cases he : p.s2mm % 2 = 0
  · by_cases he' : p'.s2mm % 2 = 0
    · rw [if_pos he, if_pos he'] at heq
      omega
    · rw [if_pos he, if_neg he'] at heq
      omega
  · by_cases he' : p'.s2mm % 2 = 0
    · rw [if_neg he, if_pos he'] at heq
      omega
    · rw [if_neg he, if_neg he'] at heq
      omega

end Claims

/-- The picks of a run: no two of one column share a stream channel, an S2MM channel or a BD,
and each of them is free in the map. -/
structure Distinct (rm : List Entry) (out : List (TraceReq × Pick)) : Prop where
  strm : (out.map fun a => (a.1.col, a.2.strm)).Nodup
  s2mm : (out.map fun a => (a.1.col, a.2.s2mm)).Nodup
  bd : (out.map fun a => (a.1.col, a.2.bd)).Nodup
  ok : ∀ a ∈ out, PickOk rm a.1 a.2

/-- **Trace resources never collide**: for every map, every claims to begin with and every run
of setups on columns with masks. -/
theorem trace_resources_distinct (rm : List Entry) (c : Claims) (qs : List TraceReq)
    (hcols : ∀ q ∈ qs, q.col < 64) : Distinct rm (run rm c qs).2 := by
  have hok := @run_pickOk rm qs c
  have hs2mm := (run_grants (fun c q hq => @setup_s2mm rm c q hq) qs c hcols).nodup
  refine ⟨(run_grants (fun c q hq => @setup_strm rm c q hq) qs c hcols).nodup, hs2mm, ?_, hok⟩
  -- a BD belongs to one S2MM channel, so BDs collide only where channels do
  have hpair := pairwise_map.1 hs2mm
  apply pairwise_map.2
  refine List.Pairwise.imp_of_mem ?_ hpair
  intro a b ha hb hne heq
  obtain ⟨hcol, hbd⟩ := Prod.mk.inj heq
  exact hne (Prod.ext hcol ((hok a ha).bd_inj (hok b hb) hbd))

/-- The data plane enters the MemTile of column 3 from the north on channel 0. -/
def busyNorth : Entry where
  col := 3
  row := 2
  recv := ⟨some .north, 0⟩
  dma := ⟨none, -1⟩
  fwd := ⟨some .dma, 0⟩
  slave := ⟨none, -1⟩
  master := ⟨none, -1⟩
  recvPktid := 1
  dmaPktid := -1
  recvArbiter := 0
  dmaArbiter := 0
  fwdArbiter := 0

/-- Two cores of column 3, above the MemTile in row 2. -/
def twoCores : List TraceReq := [⟨3, 5, 2, by decide⟩, ⟨3, 4, 2, by decide⟩]

/-- Both get resources, channels 1 and 2, and BDs 25 and 6. -/
theorem trace_resources_distinct_twoCores :
    ((run [busyNorth] ⟨fun _ => 0, fun _ => 0⟩ twoCores).2.map fun a => (a.2.strm, a.2.bd)) =
      [(1, 25), (2, 6)] ∧
      Distinct [busyNorth] (run [busyNorth] ⟨fun _ => 0, fun _ => 0⟩ twoCores).2 := by
  refine ⟨by decide, trace_resources_distinct _ _ twoCores ?_⟩
  simp [twoCores]

end AieHlc.Resmap
