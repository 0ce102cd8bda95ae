import AieHlc.Control.Config
import AieHlc.Hw.Manager

/-!
# Control plane and data flows on one set of ports

The planner of the control plane knows its ports by an index, `rt_seq_acr_chan` turns that into the
number of a hardware port, and the manager reserves ports by their numbers. Inside the partition the
two agree: what the planner's operations use was reserved, and what was reserved is never handed to
a data flow.

* `Shrinks`: what marking ports does to the banks; `Taken`: no free port of a bank has the number.
* `taken_of_reserved`: after the reservation every port on its lists is taken.
* `call_free`: a call hands out ports that are free.
* `PlanPort`, `planRows_onPlan`: the ports of the planner's operations.
* `planes_disjoint`: the planner and the data flows of the partition never share a port.
-/

namespace AieHlc.Hw

open Option Function List AieHlc.Route AieHlc.Control

variable {i : ℕ} {m m' : Manager} {role : PortRole}

/-! ## Ports that are no longer free -/

/-- Ports keep their numbers, and no port becomes free. -/
structure Shrinks (B B' : Banks) : Prop where
  number : ∀ id i, (B'.bank id).getPortnumFromPortIdx i = (B.bank id).getPortnumFromPortIdx i
  free : ∀ id i, (B'.bank id).Free i → (B.bank id).Free i

/-- No free port of the bank has the number. -/
def Taken (B : Banks) (k : BankId × ℕ) : Prop :=
  ∀ i, (B.bank k.1).Free i → (B.bank k.1).getPortnumFromPortIdx i ≠ k.2

variable {B B' B'' : Banks} {k : BankId × ℕ}

theorem Shrinks.refl (B : Banks) : Shrinks B B := ⟨fun _ _ => rfl, fun _ _ h => h⟩

theorem Shrinks.trans (h : Shrinks B B') (h' : Shrinks B' B'') : Shrinks B B'' where
  number id i := (h'.number id i).trans (h.number id i)
  free id i hi := h.free id i (h'.free id i hi)

/-- Taking a slot only shrinks what is free. -/
theorem Shrinks.mark (B : Banks) (id : BankId) (i : ℕ) (owner : ℤ) : Shrinks B (B.mark id i owner) where
  number id' j := by
    by_cases h : id' = id
    · subst h
      simp only [Banks.mark, update_self, PortBank.getPortnumFromPortIdx_mark]
    · simp only [Banks.mark, update_of_ne h]
  free id' j hj := by
    by_cases h : id' = id
    · subst h
      simp only [Banks.mark, update_self, PortBank.free_mark] at hj
      exact hj.1
    · simpa only [Banks.mark, update_of_ne h] using hj

theorem Taken.shrinks (hk : Taken B k) (h : Shrinks B B') : Taken B' k := by
  intro i hi
  rw [h.number]
  exact hk i (h.free _ _ hi)

/-! ## The reservation -/

theorem taken_of_findNumber_none (h : (B.bank k.1).findNumber k.2 = none) : Taken B k := by
  intro i hi heq
  have hmem := mem_of_getElem? ((B.bank k.1).getElem?_numbers i hi.lt)
  have hne := findIdx?_eq_none_iff.1 h _ hmem
  simp [heq] at hne

theorem taken_mark {owner : ℤ} (h : (B.bank k.1).findNumber k.2 = some i) : Taken (B.mark k.1 i owner) k := by
  obtain ⟨hlt, hnum, -⟩ := findIdx?_eq_some_iff_getElem.1 h
  have hi : i < (B.bank k.1).ports.length := by simpa [numbers] using hlt
  have hval : (B.bank k.1).getPortnumFromPortIdx i = k.2 := by
    have hget := (B.bank k.1).getElem?_numbers i hi
    rw [getElem?_eq_getElem hlt, some.injEq] at hget
    rw [← hget]
    exact of_decide_eq_true hnum
  intro j hj heq
  rw [(Shrinks.mark B k.1 i owner).number] at heq
  simp only [Banks.mark, update_self, PortBank.free_mark] at hj
  apply hj.2
  apply PortBank.getPortnumFromPortIdx_inj hj.1.lt hi
  rw [heq, hval]

theorem reserve_ok (h : B.reserve k = some B') : Shrinks B B' ∧ Taken B' k := by
  unfold Banks.reserve at h
  split at h
  · rename_i hnone
    obtain rfl := some.inj h
    exact ⟨Shrinks.refl _, taken_of_findNumber_none hnone⟩
  · rename_i i hi
    split at h
    · cases h
    · obtain rfl := some.inj h
      exact ⟨Shrinks.mark _ _ _ _, taken_mark hi⟩

/-- A reserved port stays taken while the rest is reserved. -/
theorem reserveAll_ok {l : List (BankId × ℕ)} (h : B.reserveAll l = some B') :
    Shrinks B B' ∧ ∀ k ∈ l, Taken B' k := by
  induction l generalizing B with
  | nil =>
    obtain rfl := some.inj h
    exact ⟨Shrinks.refl _, by simp⟩
  | cons r rest ih =>
    obtain ⟨B₁, h₁, h₂⟩ := bind_eq_some_iff.1 h
    obtain ⟨hs, ht⟩ := reserve_ok h₁
    obtain ⟨hs', ht'⟩ := ih h₂
    refine ⟨hs.trans hs', ?_⟩
    intro k hk
    rcases mem_cons.1 hk with rfl | hk
    · exact ht.shrinks hs'
    · exact ht' k hk

theorem reserveChannels_banks {c c' : ℕ} (h : m.reserveChannels c c' = some m') : m'.banks = m.banks := by
  obtain ⟨t, -, h⟩ := bind_eq_some_iff.1 h
  obtain ⟨r, -, h⟩ := bind_eq_some_iff.1 h
  obtain ⟨r', -, rfl⟩ := map_eq_some_iff.1 h
  rfl

theorem reservePorts_ok {l : List (BankId × ℕ)} (h : m.reservePorts l = some m') :
    Shrinks m.banks m'.banks ∧ ∀ k ∈ l, Taken m'.banks k := by
  obtain ⟨B, hB, rfl⟩ := map_eq_some_iff.1 h
  exact reserveAll_ok hB

theorem reserveShimRowControl_shrinks (h : m.reserveShimRowControl = some m') : Shrinks m.banks m'.banks := by
  unfold Manager.reserveShimRowControl at h
  split at h
  · obtain ⟨m₁, h₁, h₂⟩ := bind_eq_some_iff.1 h
    rw [← reserveChannels_banks h₁]
    exact (reservePorts_ok h₂).1
  · obtain rfl := some.inj h
    exact Shrinks.refl _

/-- **After the first reservation its ports are taken.** -/
theorem taken_of_reserved {m₁ : Manager} (hfirst : m.controlPlaneReserved = false)
    (h : m.reserveControlPlaneResources = some m₁) (hk : k ∈ m.corePorts ∨ k ∈ m.spinePorts) :
    Taken m₁.banks k := by
  unfold Manager.reserveControlPlaneResources at h
  rw [if_neg (by simp [hfirst])] at h
  obtain ⟨pool, -, h⟩ := bind_eq_some_iff.1 h
  obtain ⟨m₁, -, h⟩ := bind_eq_some_iff.1 h
  obtain ⟨m₂, hcore, h⟩ := bind_eq_some_iff.1 h
  obtain ⟨m₃, hspine, h⟩ := bind_eq_some_iff.1 h
  obtain ⟨m₄, hrow, h⟩ := bind_eq_some_iff.1 h
  obtain rfl := some.inj h
  -- what comes after a list keeps its ports taken
  have hlast := reserveShimRowControl_shrinks hrow
  rcases hk with hk | hk
  · exact ((reservePorts_ok hcore).2 k hk).shrinks ((reservePorts_ok hspine).1.trans hlast)
  · exact ((reservePorts_ok hspine).2 k hk).shrinks hlast

/-! ## Calls for data flows -/

theorem not_free_control {p : Point} : ¬(B.bank ⟨p, .control, role⟩).Free i := by
  intro h
  have hlt := h.lt
  rw [B.noControl] at hlt
  exact Nat.not_lt_zero _ hlt

theorem free_of_unused {ch : ℕ} {id : BankId} (h : B.unused ch id = true)
    (hlt : ch < (B.bank id).ports.length) :
    (B.bank id).Free ch := by
  rw [Banks.unused, getElem?_eq_getElem hlt] at h
  exact ⟨_, getElem?_eq_getElem hlt, by simpa using h⟩

theorem linkAvailable_some {a b : Point} {dir : PortDirection} {ch : ℕ} (hdir : getDir a b = some dir)
    (h : B.linkAvailable a b = some ch) : ∀ id ∈ Banks.linkBanks a b dir, B.unused ch id = true := by
  rw [Banks.linkAvailable, hdir, bind_some] at h
  have hall := find?_some h
  exact all_eq_true.1 hall

theorem occupyport_free {b b' : PortBank} {ioId : ℤ} (h : b.occupyport ioId = some (i, b')) : b.Free i := by
  rcases b.occupyport_cases ioId with ⟨hnone, -⟩ | ⟨j, hj, hfree⟩
  · rw [hnone] at h
    cases h
  · rw [hj] at h
    obtain ⟨rfl, -⟩ := Prod.mk.inj (some.inj h)
    apply PortBank.mem_indicesFree.1
    rw [hfree]
    exact mem_cons_self

/-- **What a call hands out is free, and on one of its tiles.** -/
theorem call_free {c : PortCall} {k : BankId × ℕ} (hk : k ∈ (B.call c).1) :
    (B.bank k.1).Free k.2 ∧ k.1.tile ∈ c.tiles := by
  cases c with
  | occupyLink a b ioId =>
    simp only [Banks.call] at hk
    split at hk
    · rename_i dir ch hdir hch
      obtain ⟨id, hid, rfl⟩ := mem_map.1 hk
      obtain ⟨hmem, hlt⟩ := mem_filter.1 hid
      refine ⟨free_of_unused (linkAvailable_some hdir hch id hmem) (of_decide_eq_true hlt), ?_⟩
      simp only [Banks.linkBanks, mem_cons, not_mem_nil, or_false] at hmem
      rcases hmem with rfl | rfl | rfl | rfl <;> simp [PortCall.tiles]
    · cases hk
  | occupyport io tile dir ioId =>
    simp only [Banks.call] at hk
    split at hk
    · rename_i i b' hocc
      obtain rfl := mem_singleton.1 hk
      exact ⟨occupyport_free hocc, mem_singleton_self _⟩
    · cases hk
  | allocate io tile portidx dir ioId =>
    simp only [Banks.call] at hk
    split at hk
    · rename_i b' hall
      obtain rfl := mem_singleton.1 hk
      refine ⟨?_, mem_singleton_self _⟩
      unfold PortBank.allocate at hall
      split at hall
      · assumption
      · cases hall
    · cases hk

theorem call_shrinks (B : Banks) (c : PortCall) : Shrinks B (B.call c).2 := by
  cases c with
  | occupyLink a b ioId =>
    simp only [Banks.call]
    split
    · exact (Shrinks.mark _ _ _ _).trans (Shrinks.mark _ _ _ _)
    · exact Shrinks.refl B
  | occupyport io tile dir ioId =>
    simp only [Banks.call]
    split
    · exact Shrinks.mark _ _ _ _
    · exact Shrinks.refl B
  | allocate io tile portidx dir ioId =>
    simp only [Banks.call]
    split
    · exact Shrinks.mark _ _ _ _
    · exact Shrinks.refl B

/-- What is taken is never handed out, in no run of calls; what is handed out lies on a tile of a call. -/
theorem not_taken_of_calls {cs : List PortCall} (hk : k ∈ Banks.calls cs B) :
    ¬Taken B k ∧ k.1.dir ≠ .control ∧ ∃ c ∈ cs, k.1.tile ∈ c.tiles := by
  induction cs generalizing B with
  | nil => cases hk
  | cons c rest ih =>
    rcases mem_append.1 hk with hk | hk
    · obtain ⟨p, hp, rfl⟩ := mem_map.1 hk
      obtain ⟨hfree, htile⟩ := call_free hp
      refine ⟨fun htaken => htaken p.2 hfree rfl, ?_, c, mem_cons_self, htile⟩
      obtain ⟨⟨tile, dir, role⟩, i⟩ := p
      rintro rfl
      exact not_free_control hfree
    · obtain ⟨hnot, hctrl, c', hc', htile⟩ := ih hk
      exact ⟨fun htaken => hnot (htaken.shrinks (call_shrinks B c)), hctrl, c', mem_cons_of_mem c hc', htile⟩

/-! ## The ports of the planner -/

/-- `rt_seq_acr_port`. -/
def rtSeqAcrPort : AcrPort → PortDirection
  | .west => .west
  | .east => .east
  | .north => .north
  | .south => .south
  | .ctrl => .control

/-- `rt_seq_acr_chan`. -/
def rtSeqAcrChan (p : AcrPort) (role : PortRole) (idx : ℕ) : ℕ :=
  match p, role with
  | .north, .master => RT_RES_VFWD_PORT
  | .north, .slave => RT_RES_VRET_PORT
  | .south, .master => RT_RES_VRET_PORT
  | .south, .slave => RT_RES_VFWD_PORT
  | _, _ => idx

/-- The hardware port behind a port of an operation. -/
def acrHwPort (col row : ℕ) (p : AcrPort) (role : PortRole) (idx : ℕ) : BankId × ℕ :=
  (⟨⟨row, col⟩, rtSeqAcrPort p, role⟩, rtSeqAcrChan p role idx)

/-- The ports `rt_seq_row_op` sets up for an operation. -/
def rtSeqRowOpPorts (o : AcrOp) : List (BankId × ℕ) :=
  let slave := acrHwPort o.col o.row o.sport .slave o.sidx
  let master := acrHwPort o.col o.row o.mport .master o.midx
  match o.kind with
  | .slot => [slave]
  | .slaveEn => [slave]
  | .masterEn => [master]
  | .cct => [slave, master]

/-- A port of a plan: vertical ones are on the spine, horizontal ones on a requested row. -/
structure PlanPort (spine : ℕ) (rows : List CtrlRowChain) (col row : ℕ) (p : AcrPort) : Prop where
  above : 0 < row
  vertical : p = .north ∨ p = .south → col = spine ∧ ∃ x ∈ rows, row ≤ x.row
  horizontal : p = .west ∨ p = .east → ∃ x ∈ rows, row = x.row ∧ col ≤ x.colHi

/-- All the ports of the operations are ports of the plan. -/
def OnPlan (spine : ℕ) (rows : List CtrlRowChain) (ops : List AcrOp) : Prop :=
  ∀ o ∈ ops, ∀ k ∈ rtSeqRowOpPorts o, ∃ col row p role, k = acrHwPort col row p role 0 ∧
    PlanPort spine rows col row p

variable {p : AcrPort}

section Plan

variable {spine ctrlId top : ℕ} {rows rows' : List CtrlRowChain} {ops ops' : List AcrOp}
    {x : CtrlRowChain} {c : ℕ}

theorem OnPlan.nil : OnPlan spine rows [] := fun _ h => by cases h

theorem OnPlan.append (h : OnPlan spine rows ops) (h' : OnPlan spine rows ops') :
    OnPlan spine rows (ops ++ ops') := by
  intro o ho
  rcases mem_append.1 ho with ho | ho
  · exact h o ho
  · exact h' o ho

theorem OnPlan.ite {q : Prop} [Decidable q] (h : q → OnPlan spine rows ops)
    (h' : ¬q → OnPlan spine rows ops') :
    OnPlan spine rows (if q then ops else ops') := by
  split
  · exact h ‹_›
  · exact h' ‹_›

theorem OnPlan.flatMap {f : ℕ → List AcrOp} {l : List ℕ} (h : ∀ c ∈ l, OnPlan spine rows (f c)) :
    OnPlan spine rows (l.flatMap f) := by
  intro o ho
  obtain ⟨c, hc, ho⟩ := mem_flatMap.1 ho
  exact h c hc o ho

theorem OnPlan.slot {row slot pkt mask msel arb : ℕ} (h : PlanPort spine rows c row p) :
    OnPlan spine rows [slotOp c row p slot pkt mask msel arb] := by
  intro o ho k hk
  obtain rfl := mem_singleton.1 ho
  exact ⟨c, row, p, .slave, mem_singleton.1 hk, h⟩

theorem OnPlan.slaveEn {row pktId isRet : ℕ} (h : PlanPort spine rows c row p) :
    OnPlan spine rows [slaveEnOp c row p pktId isRet] := by
  intro o ho k hk
  obtain rfl := mem_singleton.1 ho
  exact ⟨c, row, p, .slave, mem_singleton.1 hk, h⟩

theorem OnPlan.master {row mselen arb : ℕ} (h : PlanPort spine rows c row p) :
    OnPlan spine rows [masterOp c row p mselen arb] := by
  intro o ho k hk
  obtain rfl := mem_singleton.1 ho
  exact ⟨c, row, p, .master, mem_singleton.1 hk, h⟩

theorem OnPlan.cct {row isRet : ℕ} {src dst : AcrPort} (hs : PlanPort spine rows c row src)
    (hd : PlanPort spine rows c row dst) : OnPlan spine rows [cctOp c row src dst isRet] := by
  intro o ho k hk
  obtain rfl := mem_singleton.1 ho
  rcases mem_cons.1 hk with rfl | hk
  · exact ⟨c, row, src, .slave, rfl, hs⟩
  · exact ⟨c, row, dst, .master, mem_singleton.1 hk, hd⟩

theorem OnPlan.retSlot {row slot msel : ℕ} (h : PlanPort spine rows c row p) :
    OnPlan spine rows (retSlotOps c row p slot msel) := (OnPlan.slot h).append (OnPlan.slaveEn h)

theorem planPort_ctrl {row : ℕ} (hrow : 0 < row) : PlanPort spine rows c row .ctrl where
  above := hrow
  vertical := by simp
  horizontal := by simp

theorem planPort_vertical {row : ℕ} (hx : x ∈ rows) (hrow : 0 < row) (hle : row ≤ x.row)
    (hp : p = .north ∨ p = .south) : PlanPort spine rows spine row p where
  above := hrow
  vertical _ := ⟨rfl, x, hx, hle⟩
  horizontal h := by rcases hp with rfl | rfl <;> simp at h

theorem planPort_horizontal (hx : x ∈ rows) (hrow : 0 < x.row) (hc : c ≤ x.colHi)
    (hp : p = .west ∨ p = .east) : PlanPort spine rows c x.row p where
  above := hrow
  vertical h := by rcases hp with rfl | rfl <;> simp at h
  horizontal _ := ⟨x, hx, rfl, hc⟩

/-- Vertical ports are used on the spine alone, horizontal ones up to the row's last column. -/
theorem chainTileOps_onPlan {rowidx targetLo : ℕ} {isTop : Bool} (hx : x ∈ rows) (hrow : 0 < x.row)
    (hc : c ≤ x.colHi) :
    OnPlan spine rows (chainTileOps x.row rowidx spine targetLo x.colHi ctrlId spine .south isTop c) := by
  have hin : PlanPort spine rows c x.row (if c = spine then .south else .west) := by
    split
    · subst c
      exact planPort_vertical hx hrow le_rfl (.inr rfl)
    · exact planPort_horizontal hx hrow hc (.inl rfl)
  -- only the head of the row, on the spine, climbs
  have hup : isSpineHead spine spine isTop c = true → PlanPort spine rows c x.row .north := by
    intro hhead
    have hcs : c = spine := by
      simp only [isSpineHead, Bool.and_eq_true, decide_eq_true_eq] at hhead
      exact hhead.1.2
    subst hcs
    exact planPort_vertical hx hrow le_rfl (.inl rfl)
  unfold chainTileOps
  refine OnPlan.append (OnPlan.append (OnPlan.append (OnPlan.append (OnPlan.append ?_ ?_) ?_) ?_) ?_) ?_
  · exact (OnPlan.slot hin).append (OnPlan.slot hin)
  · exact OnPlan.ite (fun _ => OnPlan.slot hin) fun _ => OnPlan.nil
  · exact OnPlan.slaveEn hin
  · exact OnPlan.ite (fun _ => OnPlan.master (planPort_ctrl hrow)) fun _ => OnPlan.nil
  · exact OnPlan.ite (fun _ => OnPlan.master (planPort_horizontal hx hrow hc (.inr rfl))) fun _ => OnPlan.nil
  · exact OnPlan.ite (fun h => OnPlan.master (hup h)) fun _ => OnPlan.nil

theorem returnTileOps_onPlan {targetLo : ℕ} {isTop : Bool} (hx : x ∈ rows) (hrow : 0 < x.row)
    (hc : c ≤ x.colHi) :
    OnPlan spine rows (returnTileOps x.row spine targetLo x.colHi isTop c) := by
  unfold returnTileOps
  refine OnPlan.append (OnPlan.append ?_ ?_) (OnPlan.ite ?_ ?_)
  · exact OnPlan.ite (fun _ => OnPlan.retSlot (planPort_ctrl hrow)) fun _ => OnPlan.nil
  · exact OnPlan.ite (fun _ => OnPlan.retSlot (planPort_horizontal hx hrow hc (.inr rfl))) fun _ => OnPlan.nil
  · rintro rfl
    apply OnPlan.append
    · exact OnPlan.ite (fun _ => OnPlan.retSlot (planPort_vertical hx hrow le_rfl (.inl rfl)))
        fun _ => OnPlan.nil
    · exact OnPlan.master (planPort_vertical hx hrow le_rfl (.inr rfl))
  · intro _
    exact OnPlan.master (planPort_horizontal hx hrow hc (.inl rfl))

theorem hopOps_onPlan {s : AcrState} {r : ℕ} (hx : x ∈ rows) (hr : 0 < r) (hle : r ≤ x.row) :
    OnPlan spine rows (hopOps spine s r) := by
  have hup : PlanPort spine rows spine r .north := planPort_vertical hx hr hle (.inl rfl)
  have hdown : PlanPort spine rows spine r .south := planPort_vertical hx hr hle (.inr rfl)
  exact OnPlan.ite (fun _ => OnPlan.nil) fun _ => (OnPlan.cct hdown hup).append (OnPlan.cct hup hdown)

theorem rowOps_onPlan {s : AcrState} (hx : x ∈ rows) (hrow : 0 < x.row) :
    OnPlan spine rows (rowOps spine ctrlId top s x) := by
  refine OnPlan.ite (fun _ => OnPlan.nil) fun _ => OnPlan.append (OnPlan.append ?_ ?_) ?_
  · apply OnPlan.flatMap
    intro r hr
    rw [mem_newHops] at hr
    exact hopOps_onPlan hx (by omega) (by omega)
  · exact OnPlan.flatMap fun c hc => chainTileOps_onPlan hx hrow (mem_cols.1 hc).2
  · exact OnPlan.flatMap fun c hc => returnTileOps_onPlan hx hrow (mem_cols.1 hc).2

/-- **The ports of a plan.** -/
theorem planRows_onPlan (h : planRows spine ctrlId rows = .ok ops) : OnPlan spine rows ops := by
  unfold planRows at h
  cases hrun : planRowsFrom spine ctrlId (topRow rows) rows [] Planner.init with
  | error e =>
    rw [hrun] at h
    cases h
  | ok r =>
    rw [hrun] at h
    obtain rfl := Except.ok.inj h
    refine planRowsFrom_induct (I := fun _ done _ => OnPlan spine rows done) (Q := fun x => x ∈ rows) ?_
      rows [] [] Planner.init _ _ (fun _ hx => hx) OnPlan.nil hrun
    intro _ x done done' p p' hx hdone hplan
    obtain ⟨⟨hrow, -⟩, -, rfl, -⟩ := planRow_ok hplan
    exact hdone.append (rowOps_onPlan hx (Nat.pos_of_ne_zero hrow))

end Plan

/-! ## The two planes -/

section Planes

variable {m m₁ : Manager} {spine ctrlId : ℕ} {rows : List CtrlRowChain} {ops : List AcrOp}

theorem mem_corePorts {row col : ℕ} {d : PortDirection} (hrow : row < m.rows) (hcol : col < m.cols)
    (hin : m.isTileInPartition ⟨row, col⟩ = true) (hcore : m.tileType row = .core)
    (hd : d = .west ∨ d = .east) :
    (⟨⟨row, col⟩, d, role⟩, 0) ∈ m.corePorts := by
  refine mem_flatMap.2 ⟨row, mem_range.2 hrow, mem_flatMap.2 ⟨col, mem_range.2 hcol, ?_⟩⟩
  rw [if_pos ⟨hin, hcore⟩]
  cases role <;> rcases hd with rfl | rfl <;> simp

theorem mem_spinePorts {row : ℕ} (hspine : m.spineCol = spine) (hpos : 0 < row) (hrow : row < m.rows)
    (hin : m.isTileInPartition ⟨row, spine⟩ = true) (hp : p = .north ∨ p = .south) :
    acrHwPort spine row p role 0 ∈ m.spinePorts := by
  refine mem_flatMap.2 ⟨row, mem_range.2 hrow, ?_⟩
  simp only [hspine, hin, if_true, if_pos hpos.ne']
  cases role <;> rcases hp with rfl | rfl <;> simp [acrHwPort, rtSeqAcrPort, rtSeqAcrChan]

/-- What the planner uses inside the partition is the control port of a tile, or is reserved. -/
theorem planPort_reserved {col row : ℕ} (hspine : m.spineCol = spine)
    (hrows : ∀ x ∈ rows, x.row < m.rows ∧ x.colHi < m.cols ∧ m.tileType x.row = .core)
    (h : PlanPort spine rows col row p) (hin : m.isTileInPartition ⟨row, col⟩ = true) :
    p = .ctrl ∨ acrHwPort col row p role 0 ∈ m.corePorts ∨ acrHwPort col row p role 0 ∈ m.spinePorts := by
  have hhor : p = .west ∨ p = .east → acrHwPort col row p role 0 ∈ m.corePorts := by
    intro hp
    obtain ⟨x, hx, rfl, hcol⟩ := h.horizontal hp
    obtain ⟨hrow, hhi, hcore⟩ := hrows x hx
    rcases hp with rfl | rfl
    · exact mem_corePorts hrow (hcol.trans_lt hhi) hin hcore (.inl rfl)
    · exact mem_corePorts hrow (hcol.trans_lt hhi) hin hcore (.inr rfl)
  have hver : p = .north ∨ p = .south → acrHwPort col row p role 0 ∈ m.spinePorts := by
    intro hp
    obtain ⟨rfl, x, hx, hle⟩ := h.vertical hp
    exact mem_spinePorts hspine h.above (hle.trans_lt (hrows x hx).1) hin hp
  cases p with
  | ctrl => exact .inl rfl
  | west => exact .inr (.inl (hhor (.inl rfl)))
  | east => exact .inr (.inl (hhor (.inr rfl)))
  | north => exact .inr (.inr (hver (.inl rfl)))
  | south => exact .inr (.inr (hver (.inr rfl)))

/-- **Disjoint planes.** After the reservation, no run of calls hands a data flow a port that an
operation of the planner uses, where the calls or the operations keep to tiles of the partition. -/
theorem planes_disjoint (hfirst : m.controlPlaneReserved = false)
    (hres : m.reserveControlPlaneResources = some m₁)
    (hspine : m.spineCol = spine) (hplan : planRows spine ctrlId rows = .ok ops)
    (hrows : ∀ x ∈ rows, x.row < m.rows ∧ x.colHi < m.cols ∧ m.tileType x.row = .core) (cs : List PortCall)
    (hcs : (∀ c ∈ cs, ∀ t ∈ c.tiles, m.isTileInPartition t = true) ∨
      ∀ o ∈ ops, ∀ k ∈ rtSeqRowOpPorts o, m.isTileInPartition k.1.tile = true) :
    ∀ o ∈ ops, ∀ k ∈ rtSeqRowOpPorts o, k ∉ Banks.calls cs m₁.banks := by
  intro o ho k hk hcall
  obtain ⟨hnot, hctrl, c, hc, htile⟩ := not_taken_of_calls hcall
  have hin := hcs.elim (fun h => h c hc _ htile) fun h => h o ho k hk
  obtain ⟨col, row, p, role, rfl, hport⟩ := planRows_onPlan hplan o ho k hk
  rcases planPort_reserved hspine hrows hport hin with rfl | hres'
  · exact hctrl rfl
  · exact hnot (taken_of_reserved hfirst hres hres')

end Planes

theorem numbers_replicate (n : ℕ) : numbers (replicate n {}) = range n := by
  apply ext_getElem?
  intro i
  by_cases hi : i < n <;> simp [numbers, hi]

/-- Ports with the numbers `0 … n - 1`. -/
def plainBank (n : ℕ) : PortBank where
  ports := replicate n {}
  nodup := by
    rw [numbers_replicate]
    exact nodup_range

def coreTilePorts : PortDirection → PortRole → ℕ
  | .north, .master => 6
  | .north, .slave => 4
  | .south, .master => 4
  | .south, .slave => 6
  | .control, _ => 0
  | _, _ => 4

/-- Five rows, of which the upper three are core rows. -/
def fiveRows : Manager where
  rows := 5
  cols := 4
  tileType r := if r = 0 then .nocShim else if r = 1 then .mem else .core
  pktIdPool := replicate kMaxPktId {}
  shims := [{ col := 0, mm2s := replicate 2 {}, s2mm := replicate 2 {} }]
  banks := { bank := fun id => plainBank (coreTilePorts id.dir id.role), noControl := fun _ _ => rfl }

/-- The control plane has a column of its own, beside the partition. -/
def dedicated : Manager :=
  { fiveRows with partitionStartCol := 1, partitionEndCol := 3, ctrlPlacement := {
    col := 0, exclusive := true } }

def twoChains : List CtrlRowChain := [⟨2, 1, 3⟩, ⟨3, 1, 2⟩]

def dataCalls : List PortCall :=
  [.occupyLink ⟨2, 0⟩ ⟨2, 1⟩ 7, .occupyport .output ⟨2, 0⟩ .north 7, .allocate .input ⟨3, 0⟩ 1 .east 8]

theorem planes_disjoint_fiveRows : ∃ m₁ ops, fiveRows.reserveControlPlaneResources = some m₁ ∧
    planRows 0 0 twoChains = .ok ops ∧ (Banks.calls dataCalls m₁.banks).length = 6 ∧
    ∀ o ∈ ops, ∀ k ∈ rtSeqRowOpPorts o, k ∉ Banks.calls dataCalls m₁.banks := by
  have hres : fiveRows.reserveControlPlaneResources.any
      (fun m₁ => (Banks.calls dataCalls m₁.banks).length = 6) = true := by decide +kernel
  have hplan : (planRows 0 0 twoChains).toOption.isSome = true := by decide +kernel
  obtain ⟨m₁, hm, hlen⟩ := (any_eq_true _ _).1 hres
  cases hops : planRows 0 0 twoChains with
  | error e =>
    rw [hops] at hplan
    cases hplan
  | ok ops =>
    exact ⟨m₁, ops, hm, rfl, of_decide_eq_true hlen,
      planes_disjoint rfl hm rfl hops (by decide) dataCalls (.inl (by decide))⟩

/-- On the spine's own tile, outside the partition, a call hands out the port the plan returns over. -/
theorem not_planes_disjoint_dedicated : dedicated.controlPlaneReserved = false ∧ dedicated.spineCol = 0 ∧
    (∀ x ∈ twoChains, dedicated.tileType x.row = .core ∧
      ∀ c ∈ cols x.colLo x.colHi, dedicated.isTileInPartition ⟨x.row, c⟩ = true) ∧
    ∃ m₁ ops, dedicated.reserveControlPlaneResources = some m₁ ∧ planRows 0 0 twoChains = .ok ops ∧
      ∃ o ∈ ops, ∃ k ∈ rtSeqRowOpPorts o, k ∈ Banks.calls [.allocate .output ⟨1, 0⟩ 3 .north 7] m₁.banks := by
  refine ⟨rfl, rfl, by decide, ?_⟩
  have hshared : dedicated.reserveControlPlaneResources.any (fun m₁ =>
      (planRows 0 0 twoChains).toOption.any fun ops => ops.any fun o => (rtSeqRowOpPorts o).any fun k =>
        decide (k ∈ Banks.calls [.allocate .output ⟨1, 0⟩ 3 .north 7] m₁.banks)) = true := by decide +kernel
  obtain ⟨m₁, hm, hshared⟩ := (any_eq_true _ _).1 hshared
  cases hops : planRows 0 0 twoChains with
  | error e =>
    rw [hops] at hshared
    cases hshared
  | ok ops =>
    rw [hops] at hshared
    obtain ⟨o, ho, hk⟩ := any_eq_true.1 hshared
    obtain ⟨k, hk, hin⟩ := any_eq_true.1 hk
    exact ⟨m₁, ops, hm, rfl, o, ho, k, hk, of_decide_eq_true hin⟩

end AieHlc.Hw
