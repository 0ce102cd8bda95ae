import AieHlc.Packet.Suffix

/-!
# The table of a shim-BD window

Model of `build_window` (`aiehlc_ctrlpkt_sites.c`): the offline tool records the
register words of the shim row's return route and then those of the window's
calls, encodes them into one segment per column, and notes where the address
words of each buffer descriptor lie.

The driver is a parameter: a call writes a list of words on its own tile, or it
fails (or reads, or polls), which the recording backend rejects.

* `appendRecords`: words into the column segments, with their positions.
* `buildWindow`: the table.
* `Built`: what a table says, column by column, as lists of accesses.
-/

namespace AieHlc.Shim

open List AieHlc.Word AieHlc.Prog AieHlc.Packet

variable {D : Driver} {F : Fabric}

/-- `RT_AOT_CALL_*`. -/
inductive CallKind where
  | bd
  | bdOoo
  | chOoo
  | start
  deriving DecidableEq, Repr

def CallKind.isBd : CallKind → Bool
  | .bd | .bdOoo => true
  | .chOoo | .start => false

/-- A call of the window (`rt_sb_rec`, `s_call`): its tile, channel, direction, buffer
descriptor, repeat count, device address and the wrapper's integer arguments. -/
structure Call where
  kind : CallKind
  col : ℕ
  row : ℕ
  ch : ℕ
  bd : ℕ
  dir : ℕ
  rep : ℤ
  addr : ℕ
  args : List ℤ
  deriving DecidableEq, Repr

/-- The low `w` bits of an integer. -/
def lowBits (w : ℕ) (a : ℤ) : ℕ := (a % 2 ^ w).toNat

/-- `rt_aot_bd_hash`. -/
def rtAotBdHash (args : List ℤ) : ℕ :=
  args.foldl (fun h a => u32 ((h ^^^ lowBits 32 a) * 16777619)) 2166136261

/-- The driver: the words a call writes on its tile, `none` when it cannot be captured,
and `rt_seq_shim_bd_addr_fields`. -/
structure Driver where
  words : Call → Option (List (ℕ × ℕ))
  addrFields : ℕ → ℕ → ℕ → Option (List ℕ)

/-- The call as the tool records it, with no address yet. -/
def Call.blank (c : Call) : Call := { c with addr := 0 }

/-- A fabric: the columns of its rows and the words of its return route, each with its
column. -/
structure Fabric where
  id : ℕ
  shimCol : ℕ
  lo : ℕ
  hi : ℕ
  ret : List (ℕ × ℕ × ℕ)
  lo_le_hi : lo ≤ hi

/-- `RT_RES_SHIMROW_MAX_COLS`, `RT_AOT_SB_MAX_SEGS`. -/
def MAX_COLS : ℕ := 5

/-- `S_SEG_WORDS`, `RT_SB_SEG_WORDS`. -/
def SEG_WORDS : ℕ := 816

/-- `acr_shim_row_id`. -/
def acrShimRowId (k : ℕ) : ℕ := (2 ^ k - 1) % 256

/-- The stream header of column `k`. -/
def rowHdr (k : ℕ) : ℕ := cpeStreamHdr (acrShimRowId k)

abbrev Segs := ℕ → Seg

variable (p : ℕ → ℕ → ℕ)

/-- `rt_cpe_seg_reset` on every column. -/
def resetSegs : Segs := fun k => rtCpeSegReset (p k)

/-- One word of column `lo + k` appended to its segment; `none` when it is full. -/
def putReg (st : Segs) (k off val : ℕ) : Option Segs :=
  match rtCpeSegWrite SEG_WORDS (acrShimRowId k) off [val] (st k) with
  | .ok _ s => some (Function.update st k s)
  | .error _ _ => none

/-- `append_records`: words with their columns appended in order; with each, the
position it was written at. -/
def appendRecords (lo hi : ℕ) : List (ℕ × ℕ × ℕ) → Segs → Option (Segs × List ℕ)
  | [], st => some (st, [])
  | (col, off, val) :: rs, st =>
    if col < lo ∨ hi < col then none
    else
      (putReg st (col - lo) off val).bind fun st' =>
        (appendRecords lo hi rs st').map fun r => (r.1, u32sub (st' (col - lo)).pw 1 % 2 ^ 16 :: r.2)

/-- An entry of the table's call list (`rt_aot_sb_call`). -/
structure SbCall where
  kind : CallKind
  col : ℕ
  row : ℕ
  ch : ℕ
  bd : ℕ
  dir : ℕ
  seg : ℕ
  rep : ℕ
  argHash : ℕ
  patch : List ℕ
  deriving DecidableEq, Repr

/-- The table of a window (`rt_aot_shim_bd`). -/
structure Table where
  lo : ℕ
  hi : ℕ
  calls : List SbCall
  seg : ℕ → List ℕ
  segLast : ℕ → ℕ
  prefixLen : ℕ → ℕ
  prefixLast : ℕ → ℕ

def Table.segLen (t : Table) (k : ℕ) : ℕ := (t.seg k).length

/-- `RT_SEQ_SHIM_BD_ADDR_W0`, `_W1`, `_W2`: the address words of a buffer descriptor. -/
def ADDR_WORDS : List ℕ := [1, 2, 8]

/-- The address of `check_addr_fields`. -/
def PROBE_ADDR : ℕ := 0x0000ABCD12345670

/-- `check_addr_fields`: at the probe address the words differ from `base` exactly in
the address fields. -/
def checkAddrFields (D : Driver) (c : Call) (base : List (ℕ × ℕ)) : Bool :=
  match D.words { c with addr := PROBE_ADDR }, D.addrFields c.col c.row PROBE_ADDR with
  | some ws, some fld =>
    ws.length == 9 && (List.range 9).all fun w =>
      let want := ((ADDR_WORDS.zip fld).find? fun a => a.1 == w).elim 0 Prod.snd
      ((ws.getD w (0, 0)).2 ^^^ (base.getD w (0, 0)).2) == want
  | _, _ => false

/-- The words of a call the tool accepts. -/
def recordCall (D : Driver) (c : Call) : Option (List (ℕ × ℕ)) :=
  if c.kind.isBd ∧ -999999 ∈ c.args then none
  else
    (D.words c.blank).bind fun ws =>
      if ws = [] ∨ c.kind.isBd ∧ ¬(ws.length = 9 ∧ checkAddrFields D c ws = true) then none else some ws

/-- The entry of a call whose words went to the positions `pos` of segment `k`. -/
def entryOf (c : Call) (k : ℕ) (pos : List ℕ) : SbCall :=
  { kind := c.kind, col := c.col, row := c.row, ch := c.ch % 256, bd := c.bd % 256,
    dir := c.dir % 256, seg := k,
    rep := lowBits 8 c.rep, argHash := if c.kind.isBd then rtAotBdHash c.args else 0,
    patch := if c.kind.isBd then ADDR_WORDS.map fun w => pos.getD w 0 else [] }

/-- The calls' loop of `build_window`, over the calls inside the window. -/
def buildCalls (D : Driver) (lo hi : ℕ) : List Call → Segs → Option (Segs × List SbCall)
  | [], st => some (st, [])
  | c :: cs, st =>
    (recordCall D c).bind fun ws =>
      (appendRecords lo hi (ws.map fun w => (c.col, w)) st).bind fun r =>
        (buildCalls D lo hi cs r.1).map fun q => (q.1, entryOf c (c.col - lo) r.2 :: q.2)

def inRange (lo hi col row : ℕ) : Bool := row == 0 && lo ≤ col && col ≤ hi

/-- The calls of the window the tool looks at. -/
def windowCalls (F : Fabric) (cs : List Call) : List Call := cs.filter fun c => inRange F.lo F.hi c.col c.row

def Fabric.ncols (F : Fabric) : ℕ := F.hi - F.lo + 1

/-- Whether a fabric gets a window at all. -/
def Fabric.fits (F : Fabric) : Bool := F.shimCol + 1 == F.lo && F.ncols ≤ MAX_COLS

/-- The segments after the return route; it is left out if it cannot be encoded. -/
def routeSegs (F : Fabric) (p : ℕ → ℕ → ℕ) : Segs :=
  match appendRecords F.lo F.hi F.ret (resetSegs p) with
  | some r => r.1
  | none => resetSegs p

/-- `build_window`, for a tool whose segment buffers start out as `p`. -/
def buildWindow (D : Driver) (F : Fabric) (p : ℕ → ℕ → ℕ) (cs : List Call) : Option Table :=
  if F.fits then
    let st := routeSegs F p
    (buildCalls D F.lo F.hi (windowCalls F cs) st).bind fun r =>
      if r.2 = [] then none
      else
        some { lo := F.lo, hi := F.hi, calls := r.2,
               seg := fun k => (rtCpeSegFinish (r.1 k)).2.words,
               segLast := fun k => (rtCpeSegFinish (r.1 k)).2.last,
               prefixLen := fun k => (st k).pw,
               prefixLast := fun k => if (st k).pw ≠ 0 then (st k).last else RT_CPE_NONE }
  else none

/-- `rt_sb_aot_shift`: `none` when the table cannot be used without the route. -/
def Table.shift (t : Table) (routeNow : Bool) (k : ℕ) : Option ℕ :=
  let pre := t.prefixLen k
  if routeNow ∨ pre = 0 then some 0
  else if t.segLen k > pre ∧ (t.segLast k < pre ∨ (t.seg k).getD pre 0 ≠ (t.seg k).getD 0 0) then none
  else some pre

/-! ### The columns of a table -/

/-- The words of column `lo + k`. -/
def colWrites (lo k : ℕ) (rs : List (ℕ × ℕ × ℕ)) : List (ℕ × ℕ) :=
  rs.filterMap fun r => if r.1 - lo = k then some r.2 else none

/-- The return-route words a table holds for column `k`. -/
def tableRoute (F : Fabric) (p : ℕ → ℕ → ℕ) (k : ℕ) : List (ℕ × ℕ) :=
  if (appendRecords F.lo F.hi F.ret (resetSegs p)).isSome then colWrites F.lo k F.ret else []

/-- The call words a table holds for column `k`. -/
def tableWords (D : Driver) (F : Fabric) (cs : List Call) (k : ℕ) : List (ℕ × ℕ) :=
  (windowCalls F cs).flatMap fun c => if c.col - F.lo = k then (D.words c.blank).getD [] else []

/-- The segments `st` hold the accesses `cs`, column by column. -/
def Segs.Hold (st : Segs) (cs : ℕ → List (Chunk ℕ)) : Prop := ∀ k, (st k).Holds SEG_WORDS (rowHdr k) (cs k)

theorem seg_words_le : SEG_WORDS ≤ 2 ^ 32 - 4 := by decide

theorem resetSegs_hold : (resetSegs p).Hold fun _ => [] := fun k => holds_reset (p k)

theorem colWrites_cons (lo k col off val : ℕ) (rs : List (ℕ × ℕ × ℕ)) :
    colWrites lo k ((col, off, val) :: rs) =
      (if col - lo = k then [(off, val)] else []) ++ colWrites lo k rs := by
  rw [colWrites, filterMap_cons]
  by_cases h : col - lo = k
  · simp only [if_pos h]; rfl
  · simp only [if_neg h]; rfl

theorem colWrites_call (lo k col : ℕ) (ws : List (ℕ × ℕ)) :
    colWrites lo k (ws.map fun w => (col, w)) = if col - lo = k then ws else [] := by
  induction ws with
  | nil => rw [map_nil, ite_self]; rfl
  | cons w ws ih =>
    rw [map_cons, colWrites_cons, ih]
    split <;> rfl

theorem putReg_some {st st' : Segs} {k off val : ℕ} (h : putReg st k off val = some st') :
    ∃ u s, rtCpeSegWrite SEG_WORDS (acrShimRowId k) off [val] (st k) = .ok u s ∧
    st' = Function.update st k s := by
  unfold putReg at h
  split at h
  · rename_i u s hok
    exact ⟨u, s, hok, (Option.some.inj h).symm⟩
  · cases h

theorem putReg_hold {st st' : Segs} {k off val : ℕ} {cs : ℕ → List (Chunk ℕ)} (hst : st.Hold cs)
    (h : putReg st k off val = some st') :
    (slots (cs k)).length + 5 ≤ SEG_WORDS ∧ st'.Hold (Function.update cs k (putWord (cs k) (off, val))) := by
  obtain ⟨u, s, hok, rfl⟩ := putReg_some h
  refine ⟨((hst k).room_iff seg_words_le off val).1 ⟨u, s, hok⟩, fun j => ?_⟩
  by_cases hj : j = k
  · subst hj
    rw [Function.update_self, Function.update_self]
    exact (hst j).word seg_words_le ((rtCpeSegWrite_single off val (st j)).symm.trans hok)
  · rw [Function.update_of_ne hj, Function.update_of_ne hj]
    exact hst j

variable {lo hi : ℕ}

/-- **Words into the columns**: each segment takes the words of its column. -/
theorem appendRecords_hold (rs : List (ℕ × ℕ × ℕ)) : ∀ {st st' : Segs} {pos : List ℕ}
    {cs : ℕ → List (Chunk ℕ)}, appendRecords lo hi rs st = some (st', pos) → st.Hold cs →
    (∀ k, Fits SEG_WORDS (cs k) (colWrites lo k rs)) ∧
    st'.Hold fun k => putWords (cs k) (colWrites lo k rs) := by
  induction rs with
  | nil =>
    intro st st' pos cs h hst
    cases h
    exact ⟨fun _ => trivial, hst⟩
  | cons r rs ih =>
    intro st st' pos cs h hst
    obtain ⟨col, off, val⟩ := r
    rw [appendRecords] at h
    split at h
    · cases h
    · obtain ⟨st1, h1, h2⟩ := Option.bind_eq_some_iff.1 h
      obtain ⟨r, h3, h4⟩ := Option.map_eq_some_iff.1 h2
      cases h4
      obtain ⟨hroom, hst1⟩ := putReg_hold hst h1
      obtain ⟨hfit, hst'⟩ := ih h3 hst1
      have hstep : ∀ k, putWords (cs k) (colWrites lo k ((col, off, val) :: rs)) =
          putWords (Function.update cs (col - lo) (putWord (cs (col - lo)) (off, val)) k)
            (colWrites lo k rs) := by
        intro k
        rw [colWrites_cons]
        by_cases hk : col - lo = k
        · rw [if_pos hk, hk, Function.update_self]
          rfl
        · rw [if_neg hk, Function.update_of_ne (Ne.symm hk)]
          rfl
      refine ⟨fun k => ?_, by rw [funext hstep]; exact hst'⟩
      have hk := hfit k
      rw [colWrites_cons]
      by_cases heq : col - lo = k
      · subst heq
        rw [Function.update_self] at hk
        rw [if_pos rfl]
        exact ⟨hroom, hk⟩
      · rw [Function.update_of_ne (Ne.symm heq)] at hk
        rw [if_neg heq]
        exact hk

theorem exists_putReg {st : Segs} {k : ℕ} {cs : ℕ → List (Chunk ℕ)} (hst : st.Hold cs)
    (hroom : (slots (cs k)).length + 5 ≤ SEG_WORDS) (off val : ℕ) :
    ∃ st', putReg st k off val = some st' := by
  obtain ⟨u, s, hok⟩ := ((hst k).room_iff seg_words_le off val).2 hroom
  refine ⟨Function.update st k s, ?_⟩
  rw [putReg, hok]

theorem exists_appendRecords (rs : List (ℕ × ℕ × ℕ)) : ∀ {st : Segs} {cs : ℕ → List (Chunk ℕ)},
    st.Hold cs → (∀ r ∈ rs, lo ≤ r.1 ∧ r.1 ≤ hi) → (∀ k, Fits SEG_WORDS (cs k) (colWrites lo k rs)) →
    ∃ r, appendRecords lo hi rs st = some r := by
  induction rs with
  | nil => exact fun _ _ _ => ⟨_, rfl⟩
  | cons r rs ih =>
    intro st cs hst hrange hfit
    obtain ⟨col, off, val⟩ := r
    have hcol := hrange _ mem_cons_self
    have hk := hfit (col - lo)
    rw [colWrites_cons, if_pos rfl] at hk
    obtain ⟨st1, h1⟩ := exists_putReg hst hk.1 off val
    obtain ⟨-, hst1⟩ := putReg_hold hst h1
    obtain ⟨q, hq⟩ := ih hst1 (fun r hr => hrange r (mem_cons_of_mem _ hr)) fun k => by
      by_cases hk' : col - lo = k
      · subst hk'
        rw [Function.update_self]
        exact hk.2
      · have h := hfit k
        rw [colWrites_cons, if_neg hk'] at h
        rw [Function.update_of_ne (Ne.symm hk')]
        exact h
    refine ⟨(q.1, u32sub (st1 (col - lo)).pw 1 % 2 ^ 16 :: q.2), ?_⟩
    rw [appendRecords, if_neg (by simp only at hcol; omega), h1, Option.bind_some, hq]
    rfl

variable (cs : List (Chunk ℕ)) (ws : List (ℕ × ℕ))

/-- Where the words of a call of column `k` were written. -/
def positions : List ℕ :=
  (List.range ws.length).map fun i => (slots (putWords cs (ws.take (i + 1)))).length - 1

theorem positions_cons (w : ℕ × ℕ) (ws : List (ℕ × ℕ)) :
    positions cs (w :: ws) = ((slots (putWord cs w)).length - 1) :: positions (putWord cs w) ws := by
  rw [positions, length_cons, range_succ_eq_map, map_cons, map_map]
  rfl

theorem slots_putWord_pos (w : ℕ × ℕ) : 1 ≤ (slots (putWord cs w)).length := by
  obtain ⟨c, cs', h⟩ := exists_cons_of_ne_nil (putWord_ne_nil cs w)
  rw [h, slots, length_append, c.slots_length]
  omega

/-- The position noted for a word is that of the last word written. -/
theorem appendRecords_positions {lo hi col : ℕ} : ∀ {st st' : Segs} {pos : List ℕ}
    {cs : ℕ → List (Chunk ℕ)}, appendRecords lo hi (ws.map fun w => (col, w)) st = some (st', pos) →
    st.Hold cs →
    pos = positions (cs (col - lo)) ws := by
  induction ws with
  | nil =>
    intro st st' pos cs h _
    cases h
    rfl
  | cons w ws ih =>
    intro st st' pos cs h hst
    obtain ⟨off, val⟩ := w
    rw [map_cons, appendRecords] at h
    split at h
    · cases h
    · obtain ⟨st1, h1, h2⟩ := Option.bind_eq_some_iff.1 h
      obtain ⟨r, h3, h4⟩ := Option.map_eq_some_iff.1 h2
      cases h4
      obtain ⟨-, hst1⟩ := putReg_hold hst h1
      have hpos := ih h3 hst1
      have hk := hst1 (col - lo)
      rw [Function.update_self] at hk hpos
      have hpw := hk.pw_eq
      have hroom := hk.room
      have hone := slots_putWord_pos (cs (col - lo)) (off, val)
      rw [SEG_WORDS] at hroom
      have hnote : u32sub (st1 (col - lo)).pw 1 % 2 ^ 16 = (st1 (col - lo)).pw - 1 := by
        rw [u32sub_eq (by omega) (by omega), Nat.mod_eq_of_lt (by omega)]
      rw [positions_cons, ← hpos, ← hpw, ← hnote]

theorem recordCall_words {c : Call} {ws : List (ℕ × ℕ)} (h : recordCall D c = some ws) :
    D.words c.blank = some ws := by
  unfold recordCall at h
  split at h
  · cases h
  · obtain ⟨ws', h1, h2⟩ := Option.bind_eq_some_iff.1 h
    split at h2
    · cases h2
    · cases h2
      exact h1

/-- What the calls' loop leaves: the segments with all call words, and for each call its
entry, with the positions of its words. -/
theorem buildCalls_hold (calls : List Call) : ∀ {st st' : Segs} {es : List SbCall}
    {cs : ℕ → List (Chunk ℕ)}, buildCalls D lo hi calls st = some (st', es) → st.Hold cs →
    (∀ k, Fits SEG_WORDS (cs k)
      (calls.flatMap fun c => if c.col - lo = k then (D.words c.blank).getD [] else [])) ∧
      st'.Hold fun k =>
        putWords (cs k) (calls.flatMap fun c => if c.col - lo = k then (D.words c.blank).getD []
          else []) := by
  induction calls with
  | nil =>
    intro st st' es cs h hst
    cases h
    exact ⟨fun _ => trivial, hst⟩
  | cons c calls ih =>
    intro st st' es cs h hst
    obtain ⟨ws, h1, h2⟩ := Option.bind_eq_some_iff.1 h
    obtain ⟨r, h3, h4⟩ := Option.bind_eq_some_iff.1 h2
    obtain ⟨q, h5, h6⟩ := Option.map_eq_some_iff.1 h4
    cases h6
    have hws : D.words c.blank = some ws := recordCall_words h1
    obtain ⟨hfit, hst1⟩ := appendRecords_hold _ h3 hst
    obtain ⟨hfit', hst2⟩ := ih h5 hst1
    simp only [colWrites_call] at hfit hfit' hst2
    have hsplit : ∀ k, putWords (cs k) ((c :: calls).flatMap fun c =>
        if c.col - lo = k then (D.words c.blank).getD [] else []) =
        putWords (putWords (cs k) (if c.col - lo = k then ws else []))
          (calls.flatMap fun c => if c.col - lo = k then (D.words c.blank).getD [] else []) := by
      intro k
      rw [flatMap_cons, putWords_split, hws]
      rfl
    refine ⟨fun k => ?_, by rw [funext hsplit]; exact hst2⟩
    rw [flatMap_cons, hws, fits_append]
    exact ⟨hfit k, hfit' k⟩

/-- Column `k` of a table: the route words `R` and then the call words `W`. -/
structure Table.Column (t : Table) (k : ℕ) (R W : List (ℕ × ℕ)) : Prop where
  seg : t.seg k = wordsOf (rowHdr k) (sealLast (putWords (putWords [] R) W))
  segLast : t.segLast k = lastCtrl (sealLast (putWords (putWords [] R) W))
  prefixLen : t.prefixLen k = (slots (putWords [] R)).length
  prefixLast : t.prefixLast k = lastCtrl (putWords [] R)
  fits : Fits SEG_WORDS (putWords [] R) W

theorem putWords_nil_valid : ∀ c ∈ putWords [] ws, c.Valid := putWords_valid (by simp) ws

theorem routeSegs_hold (F : Fabric) (p : ℕ → ℕ → ℕ) :
    (routeSegs F p).Hold fun k => putWords [] (tableRoute F p k) := by
  unfold routeSegs tableRoute
  cases h : appendRecords F.lo F.hi F.ret (resetSegs p) with
  | none =>
    simp only [Option.isSome_none, Bool.false_eq_true, if_false]
    exact resetSegs_hold p
  | some r =>
    simp only [Option.isSome_some, if_true]
    exact (appendRecords_hold F.ret h (resetSegs_hold p)).2

/-- **The columns of a built table.** -/
theorem buildWindow_column {p : ℕ → ℕ → ℕ} {cs : List Call} {t : Table}
    (h : buildWindow D F p cs = some t) (k : ℕ) :
    t.Column k (tableRoute F p k) (tableWords D F cs k) := by
  unfold buildWindow at h
  split at h
  · obtain ⟨r, h1, h2⟩ := Option.bind_eq_some_iff.1 h
    split at h2
    · cases h2
    · cases h2
      have hroute := routeSegs_hold F p
      obtain ⟨hfit, hst⟩ := buildCalls_hold _ h1 hroute
      obtain ⟨hw, hl, -⟩ := (hst k).finish (by decide)
      refine ⟨hw, hl, (hroute k).pw_eq, ?_, hfit k⟩
      show (if (routeSegs F p k).pw ≠ 0 then (routeSegs F p k).last else RT_CPE_NONE) = _
      split
      · exact (hroute k).last
      · rename_i hpw
        have hempty : putWords [] (tableRoute F p k) = [] := by
          by_contra hne
          obtain ⟨c, cs', hcs⟩ := exists_cons_of_ne_nil hne
          have hlen : (routeSegs F p k).pw = (slots (putWords [] (tableRoute F p k))).length :=
            (hroute k).pw_eq
          rw [hcs, slots, length_append, c.slots_length] at hlen
          omega
        rw [hempty]
        rfl
  · cases h

end AieHlc.Shim
