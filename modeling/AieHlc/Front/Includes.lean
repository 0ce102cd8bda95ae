import Mathlib.Data.Set.Function

/-!
# The two splicers of included sources

`load_source` splices the sources a kernel includes for the checks, `inlineSourceIncludes` for the
compiler. Both drop what was spliced before and go nine levels deep, but the one knows a file by
what its path resolves to, the other by the path.

* `Splicer`: what they have in common; `loadSource`, `inlineSourceIncludes`: the two.
* `lines_agree`, `splice_agree`: they agree as long as no two paths in use lead to one file that can be read.
* `not_sameText`: where two paths do, that file is spliced twice.
-/

namespace AieHlc.Front

variable {Path File K : Type}

/-- A line of a source: a directive that includes another one, with the path that is tried, or any
other line. -/
inductive Line (Path : Type) where
  | text (s : String)
  | directive (p : Path) (s : String)

def Line.source : Line Path → String
  | .text s => s
  | .directive _ s => s

/-- A line of the spliced text, or a marker comment. -/
inductive Spliced (Path : Type) where
  | line (s : String)
  | marker (p : Path)

/-- The text but for markers and blank lines. -/
def code (out : List (Spliced Path)) : List String :=
  out.filterMap fun o =>
    match o with
    | .line s => if s = "" then none else some s
    | .marker _ => none

@[simp]
theorem code_append (a b : List (Spliced Path)) : code (a ++ b) = code a ++ code b := List.filterMap_append

/-- A splicer: how it knows a file, what it leaves of a repeated directive, and what it puts around a file. -/
structure Splicer (Path K : Type) where
  key : Path → K
  repeated : List (Spliced Path)
  frame : Path → List (Spliced Path) → List (Spliced Path)

namespace Splicer

variable [DecidableEq K] (S : Splicer Path K) (read : Path → Option (List (Line Path)))

/-- A directive; `sub` splices the file. A file that cannot be read leaves the directive. -/
def include1 (sub : List (Line Path) → List K → List (Spliced Path) × List K) (p : Path)
    (s : String) (seen : List K) :
    List (Spliced Path) × List K :=
  if S.key p ∈ seen then (S.repeated, seen)
  else
    match read p with
    | none => ([.line s], seen)
    | some body => ((S.frame p (sub body (S.key p :: seen)).1), (sub body (S.key p :: seen)).2)

def lines (sub : List (Line Path) → List K → List (Spliced Path) × List K) :
    List (Line Path) → List K → List (Spliced Path) × List K
  | [], seen => ([], seen)
  | .text s :: ls, seen => (.line s :: (lines sub ls seen).1, (lines sub ls seen).2)
  | .directive p s :: ls, seen =>
    let here := S.include1 read sub p s seen
    (here.1 ++ (lines sub ls here.2).1, (lines sub ls here.2).2)

/-- The text of a file, with so many levels left; below them directives are left alone. -/
def splice : ℕ → List (Line Path) → List K → List (Spliced Path) × List K
  | 0, ls, seen => (ls.map fun l => .line l.source, seen)
  | depth + 1, ls, seen => S.lines read (splice depth) ls seen

end Splicer

section Two

variable [DecidableEq Path] [DecidableEq File] (resolve : Path → File)
    (files : File → Option (List (Line Path)))

/-- `load_source` knows a file by what its path resolves to. -/
def byFile : Splicer Path File := ⟨resolve, [], fun _ out => out⟩

/-- The compiler knows it by the path, and puts markers around it. -/
def byPath : Splicer Path Path :=
  ⟨fun p => p, [.line ""], fun p out => [.line "", .marker p] ++ out ++ [.marker p, .line ""]⟩

variable (entry : List (Line Path))

def loadSource : List (Spliced Path) :=
  ((byFile resolve).splice (files ∘ resolve) 9 entry []).1

def inlineSourceIncludes : List (Spliced Path) :=
  (byPath.splice (files ∘ resolve) 9 entry []).1

/-- The two splicers give the same text. -/
def SameText : Prop :=
  code (loadSource resolve files entry) = code (inlineSourceIncludes resolve files entry)

end Two

/-- The paths of all directives are in `N`. -/
def Names (N : Set Path) (ls : List (Line Path)) : Prop := ∀ p s, .directive p s ∈ ls → p ∈ N

/-- The two end with the same text, and know the same files. -/
structure Alike (resolve : Path → File) (R : Set Path) (a : List (Spliced Path) × List File)
    (b : List (Spliced Path) × List Path) : Prop where
  code : code a.1 = code b.1
  seen : a.2 = b.2.map resolve
  named : ∀ p ∈ b.2, p ∈ R

/-- Two ways to splice lines with paths in `N` that agree, whatever files of `R` were seen before. -/
def Agree (resolve : Path → File) (N R : Set Path)
    (sub : List (Line Path) → List File → List (Spliced Path) × List File)
    (sub' : List (Line Path) → List Path → List (Spliced Path) × List Path) : Prop :=
  ∀ ls seen, Names N ls → (∀ p ∈ seen, p ∈ R) → Alike resolve R (sub ls (seen.map resolve)) (sub' ls seen)

/-- The paths of `N` whose file can be read. -/
def Readable (resolve : Path → File) (files : File → Option (List (Line Path))) (N : Set Path) : Set Path :=
  {p ∈ N | files (resolve p) ≠ none}

variable [DecidableEq Path] [DecidableEq File] {resolve : Path → File} {N : Set Path}

section Agreement

variable {files : File → Option (List (Line Path))} (hinj : Set.InjOn resolve (Readable resolve files N))
  (hfiles : ∀ f body, files f = some body → Names N body)
  {sub : List (Line Path) → List File → List (Spliced Path) × List File}
  {sub' : List (Line Path) → List Path → List (Spliced Path) × List Path}

include hinj hfiles

theorem include1_agree (hsub : Agree resolve N (Readable resolve files N) sub sub') {p : Path}
    (hp : p ∈ N) (s : String)
    {seen : List Path} (hseen : ∀ q ∈ seen, q ∈ Readable resolve files N) :
    Alike resolve (Readable resolve files N)
      ((byFile resolve).include1 (files ∘ resolve) sub p s (seen.map resolve))
      (byPath.include1 (files ∘ resolve) sub' p s seen) := by
  have hmem : resolve p ∈ seen.map resolve ↔ p ∈ seen := by
    rw [List.mem_map]
    constructor
    · rintro ⟨q, hq, heq⟩
      -- a file that was seen can be read
      have hread : p ∈ Readable resolve files N := ⟨hp, heq ▸ (hseen q hq).2⟩
      rwa [← hinj (hseen q hq) hread heq]
    · exact fun h => ⟨p, h, rfl⟩
  simp only [Splicer.include1, byFile, byPath, hmem, Function.comp_apply]
  by_cases hin : p ∈ seen
  · simp only [hin, if_true]
    exact ⟨by simp [code], rfl, hseen⟩
  simp only [hin, if_false]
  cases hbody : files (resolve p) with
  | none => exact ⟨rfl, rfl, hseen⟩
  | some body =>
    have hread : p ∈ Readable resolve files N := ⟨hp, by rw [hbody]; nofun⟩
    have hnext : ∀ q ∈ p :: seen, q ∈ Readable resolve files N := by simpa [hread] using hseen
    obtain ⟨hcode, hknown, hnamed⟩ := hsub body (p :: seen) (hfiles _ _ hbody) hnext
    refine ⟨hcode.trans ?_, hknown, hnamed⟩
    simp [code]

theorem lines_agree (hsub : Agree resolve N (Readable resolve files N) sub sub') :
    Agree resolve N (Readable resolve files N) ((byFile resolve).lines (files ∘ resolve) sub)
      (byPath.lines (files ∘ resolve) sub') := by
  intro ls
  induction ls with
  | nil => exact fun seen _ hseen => ⟨rfl, rfl, hseen⟩
  | cons l ls ih =>
    intro seen hls hseen
    have htail : Names N ls := fun p s h => hls p s (.tail _ h)
    cases l with
    | text s =>
      obtain ⟨hcode, hknown, hnamed⟩ := ih seen htail hseen
      refine ⟨?_, hknown, hnamed⟩
      simp only [code, Splicer.lines, List.filterMap_cons] at hcode ⊢
      rw [hcode]
    | directive p s =>
      have hhere := include1_agree hinj hfiles hsub (hls p s (.head _)) s hseen
      obtain ⟨hcode, hknown, hnamed⟩ := ih _ htail hhere.named
      simp only [Splicer.lines, hhere.seen]
      exact ⟨by rw [code_append, code_append, hhere.code, hcode], hknown, hnamed⟩

theorem splice_agree (depth : ℕ) : Agree resolve N (Readable resolve files N)
    ((byFile resolve).splice (files ∘ resolve) depth) (byPath.splice (files ∘ resolve) depth) := by
  induction depth with
  | zero => exact fun ls seen _ hseen => ⟨rfl, rfl, hseen⟩
  | succ depth ih => exact lines_agree hinj hfiles ih

end Agreement

/-- A file that is included by two paths. -/
theorem not_sameText {p q : Path} (hne : p ≠ q) (heq : resolve p = resolve q) :
    ¬SameText resolve (fun _ => some [.text "int f();"]) [.directive p "", .directive q ""] := by
  simp [SameText, loadSource, inlineSourceIncludes, Splicer.splice, Splicer.lines, Splicer.include1,
    byFile, byPath, code,
    heq, hne.symm]

/-- **The splicers agree on all sources that use the paths of `N` exactly if no two of these lead to
one file**; on one source, if no two of them lead to one file that can be read. -/
theorem splicers_agree_iff (resolve : Path → File) (N : Set Path) :
    ((∀ files entry, (∀ f body, files f = some body → Names N body) → Names N entry →
      SameText resolve files entry) ↔
      Set.InjOn resolve N) ∧
    ∀ files entry, (∀ f body, files f = some body → Names N body) → Names N entry →
      Set.InjOn resolve (Readable resolve files N) → SameText resolve files entry := by
  have hone : ∀ files entry, (∀ f body, files f = some body → Names N body) → Names N entry →
      Set.InjOn resolve (Readable resolve files N) → SameText resolve files entry :=
    fun files entry hfiles hentry hinj => (splice_agree hinj hfiles 9 entry [] hentry (by simp)).code
  refine ⟨?_, hone⟩
  constructor
  · intro h p hp q hq heq
    by_contra hne
    refine not_sameText hne heq (h _ _ ?_ ?_)
    · intro f body hbody p s hmem
      obtain rfl := Option.some.inj hbody
      simp at hmem
    · intro r s hmem
      simp only [List.mem_cons, Line.directive.injEq, List.not_mem_nil, or_false] at hmem
      rcases hmem with ⟨rfl, -⟩ | ⟨rfl, -⟩
      · exact hp
      · exact hq
  · intro hinj files entry hfiles hentry
    exact hone files entry hfiles hentry (hinj.mono fun p hp => hp.1)

/-- A kernel that is included by its name, and by a path through its own directory. -/
theorem not_splicers_agree :
    ¬SameText (fun p => if p = "./k.cc" then "k.cc" else p) (fun _ => some [.text "int f();"])
      [.directive "k.cc" "", .directive "./k.cc" ""] := by
  apply not_sameText
  · simp
  · simp

end AieHlc.Front
