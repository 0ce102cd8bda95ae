import AieHlc.Autotile.Derive
import Mathlib.Tactic.Common

/-!
# Affine fits of a port's blocks

A port's blocks in affine form: one shape, an offset per mesh row and column, and
two nested round steps. `expectedFit` is the form the derived DMA delivers,
`compareFit` the messages where a traced kernel's form differs from it.

* `PortFit.offset`: where a block of the fit stands, one coordinate at a time.
* `compareFit_eq_nil`: no message means the forms agree as far as they are compared.
-/

namespace AieHlc.Autotile

/-- The roles of a port. -/
inductive Role
  | IFM | WEIGHTS | OFM
deriving DecidableEq, Repr

def Role.name : Role → String
  | .IFM => "IFM"
  | .WEIGHTS => "WEIGHTS"
  | .OFM => "OFM"

structure TracePort where
  var : String
  role : Role
  shape : List ℤ := []
  elemBytes : ℤ := 1
  output : Bool := false
deriving DecidableEq, Repr

/-- The affine form of a block sequence. -/
structure PortFit where
  rank : ℕ := 0
  shape : List ℤ := []
  baseP0 : List ℤ := []
  baseP1 : List ℤ := []
  stepI : List ℤ := []
  stepJ : List ℤ := []
  roundsI : ℤ := 1
  roundsJ : ℤ := 1
deriving DecidableEq, Repr

/-- Offset of a block in dimension `d`: core `(p0, p1)`, outer round `i`, inner round `j`. -/
def PortFit.offset (f : PortFit) (p0 p1 i j : ℤ) (d : ℕ) : ℤ :=
  p0 * f.baseP0.getD d 0 + p1 * f.baseP1.getD d 0 + i * f.stepI.getD d 0 + j * f.stepJ.getD d 0

/-- The block each port delivers under the derivation. -/
def expectedFit (role : Role) (c : Conv2dSpec) (d : Derived) : PortFit :=
  match role with
  | .WEIGHTS =>
    { rank := 4
      shape := [d.ocMesh, c.kh, c.kw, d.cAlign]
      baseP0 := [0, 0, 0, 0]
      baseP1 := [d.ocMesh, 0, 0, 0]
      stepI := [0, 0, 0, 0]
      stepJ := [0, 0, 0, 0] }
  | .IFM =>
    { rank := 3
      roundsI := d.hRounds
      roundsJ := d.wRounds
      shape := [d.tileH, d.tileW, d.cAlign]
      baseP0 := [d.meshStepH, 0, 0]
      baseP1 := [0, 0, 0]
      stepI := [d.tileStepH, 0, 0]
      stepJ := [0, d.tileStepW, 0] }
  | .OFM =>
    { rank := 3
      roundsI := d.hRounds
      roundsJ := d.wRounds
      shape := [d.ohT, d.owT, d.ocMesh]
      baseP0 := [d.ohMesh, 0, 0]
      baseP1 := [0, 0, d.ocMesh]
      stepI := [d.ohT, 0, 0]
      stepJ := [0, d.owT, 0] }

def dimName : Role → ℕ → String
  | .WEIGHTS, d => ["output channels", "kernel rows", "kernel cols", "channels"].getD d "?"
  | _, d => ["rows", "cols", "channels", "?"].getD d "?"

def vecStr (v : List ℤ) : String := "(" ++ String.intercalate "," (v.map toString) ++ ")"

/-- A message when two vectors of a fit differ. -/
def cmp (who what : String) (g w : List ℤ) : List String :=
  complain (g ≠ w) (who ++ ": " ++ what ++ " " ++ vecStr g ++ ", the DMA uses " ++ vecStr w)

/-- The block of a kernel against the DMA's in one dimension. -/
def cmpShape (who why : String) (role : Role) (got want : List ℤ) (d : ℕ) : List String :=
  complain (got.getD d 0 ≠ want.getD d 0)
    (who ++ ": block " ++ vecStr got ++ " is too " ++
      (if got.getD d 0 > want.getD d 0 then "big" else "small") ++ " in dim " ++ toString d ++ " (" ++
      dimName role d ++ "): it takes " ++ toString (got.getD d 0) ++ ", the DMA block is " ++
      toString (want.getD d 0) ++ why)

/-- The rounds of a kernel against the DMA's; steps only where there is a round to take. -/
def cmpRounds (who : String) (got want : PortFit) : List String :=
  if got.roundsI * got.roundsJ ≠ want.roundsI * want.roundsJ then
    [who ++ ": " ++ toString (got.roundsI * got.roundsJ) ++ " blocks per core, the DMA sends " ++
      toString (want.roundsI * want.roundsJ)]
  else if got.roundsJ ≠ want.roundsJ ∨ got.roundsI ≠ want.roundsI then
    [who ++ ": rounds " ++ toString got.roundsI ++ "x" ++ toString got.roundsJ ++
      " (outer x inner), the DMA sends " ++ toString want.roundsI ++ "x" ++ toString want.roundsJ ++
      " in that order"]
  else
    (if want.roundsI > 1 then cmp who "outer-loop step" got.stepI want.stepI else []) ++
    (if want.roundsJ > 1 then cmp who "inner-loop step" got.stepJ want.stepJ else [])

/-- Kernel blocks against the derived DMA, one message per aspect that differs. -/
def compareFit (port : TracePort) (got want : PortFit) (why : String) : List String :=
  let who := "load_buffer/store_buffer on " ++ port.var ++ " (" ++ port.role.name ++ ")"
  if got.rank ≠ want.rank then
    [who ++ ": blocks have " ++ toString got.rank ++ " dims, expected " ++ toString want.rank]
  else
    (List.range got.rank).flatMap (cmpShape who why port.role got.shape want.shape) ++
    cmp who "per-mesh-row offset (x program_id(0))" got.baseP0 want.baseP0 ++
    cmp who "per-mesh-col offset (x program_id(1))" got.baseP1 want.baseP1 ++
    cmpRounds who got want

@[simp] theorem complain_eq_nil {bad : Prop} [Decidable bad] {msg : String} :
    complain bad msg = [] ↔ ¬bad := by
  unfold complain
  split <;> simp_all

@[simp] theorem cmp_eq_nil {who what : String} {g w : List ℤ} : cmp who what g w = [] ↔ g = w := by
  simp [cmp]

/-- What two fits that compare without a message share. -/
structure Agree (got want : PortFit) : Prop where
  rank : got.rank = want.rank
  shape : ∀ d < want.rank, got.shape.getD d 0 = want.shape.getD d 0
  baseP0 : got.baseP0 = want.baseP0
  baseP1 : got.baseP1 = want.baseP1
  roundsI : got.roundsI = want.roundsI
  roundsJ : got.roundsJ = want.roundsJ
  stepI : 1 < want.roundsI → got.stepI = want.stepI
  stepJ : 1 < want.roundsJ → got.stepJ = want.stepJ

theorem cmpRounds_eq_nil {who : String} {got want : PortFit} :
    cmpRounds who got want = [] ↔
      got.roundsI = want.roundsI ∧ got.roundsJ = want.roundsJ ∧
        (1 < want.roundsI → got.stepI = want.stepI) ∧ (1 < want.roundsJ → got.stepJ = want.stepJ) := by
  unfold cmpRounds
  by_cases hn : got.roundsI * got.roundsJ = want.roundsI * want.roundsJ
  · by_cases hr : got.roundsJ ≠ want.roundsJ ∨ got.roundsI ≠ want.roundsI
    · rw [if_neg (not_not.2 hn), if_pos hr]
      refine iff_of_false (by simp) ?_
      rintro ⟨hi, hj, -⟩
      exact hr.elim (absurd hj) (absurd hi)
    · have hr' : got.roundsJ = want.roundsJ ∧ got.roundsI = want.roundsI := by tauto
      rw [if_neg (not_not.2 hn), if_neg hr]
      simp [hr'.1, hr'.2, List.append_eq_nil_iff]
  · rw [if_pos hn]
    refine iff_of_false (by simp) ?_
    rintro ⟨hi, hj, -⟩
    exact hn (by rw [hi, hj])

/-- **No message exactly when the forms agree** in all that is compared. -/
theorem compareFit_eq_nil {port : TracePort} {got want : PortFit} {why : String} :
    compareFit port got want why = [] ↔ Agree got want := by
  unfold compareFit
  by_cases hr : got.rank = want.rank
  · rw [if_neg (not_not.2 hr)]
    simp only [List.append_eq_nil_iff, List.flatMap_eq_nil_iff, List.mem_range, cmpShape,
      complain_eq_nil, not_not, cmp_eq_nil, cmpRounds_eq_nil, hr]
    constructor
    · rintro ⟨⟨⟨hs, h0⟩, h1⟩, hi, hj, hsi, hsj⟩
      exact ⟨hr, hs, h0, h1, hi, hj, hsi, hsj⟩
    · intro h
      exact ⟨⟨⟨h.shape, h.baseP0⟩, h.baseP1⟩, h.roundsI, h.roundsJ, h.stepI, h.stepJ⟩
  · rw [if_pos hr]
    exact iff_of_false (by simp) fun h => hr h.rank

end AieHlc.Autotile
