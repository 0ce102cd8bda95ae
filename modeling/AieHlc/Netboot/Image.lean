import AieHlc.Prog.Logged
import Mathlib.Algebra.Order.Ring.Nat

/-!
# The memory of the board and the headers of an image

The supervisor reads an ELF image from its staging area and writes app memory, both through plain
pointers: addresses are 64-bit numbers and sums of them wrap. Programs log what they load from the
image, what they look up in app memory and what they store.

* `Mem`, `Access`, `NbM`: memory, accesses and programs.
* `load`, `memcpy`, `strcmp`, `store`: the accesses of the loader.
* `Ehdr`, `Phdr`, `Shdr`, `Sym`: the headers, as they are read from memory.
* `Local`: a value that is read depends on the bytes of its range only.
-/

namespace AieHlc.Netboot

open AieHlc.Prog

def NB_STAGING_BASE : ℕ := 0x7A200000
def NB_STAGING_SIZE : ℕ := 0x80000000 - NB_STAGING_BASE

abbrev Mem := ℕ → UInt8

def wrap (a : ℕ) : ℕ := a % 2 ^ 64

/-- An access to a range of memory. -/
inductive Access where
  /-- from the image -/
  | load (addr len : ℕ)
  /-- from app memory -/
  | peek (addr len : ℕ)
  | store (addr len : ℕ)
  deriving DecidableEq, Repr

abbrev NbM := Logged Mem Access

/-! ## Reading -/

/-- A little-endian number of `n` bytes. -/
def le (μ : Mem) (a : ℕ) : ℕ → ℕ
  | 0 => 0
  | n + 1 => (μ (wrap a)).toNat + 256 * le μ (a + 1) n

/-- The bytes of a number, least significant first. -/
def bytesLE (n v : ℕ) : List UInt8 := (List.range n).map fun i => UInt8.ofNat (v / 256 ^ i)

/-- What is read of an `Elf64_Ehdr`. -/
structure Ehdr where
  ident : List UInt8
  type : ℕ
  machine : ℕ
  entry : ℕ
  phoff : ℕ
  shoff : ℕ
  phentsize : ℕ
  phnum : ℕ
  shentsize : ℕ
  shnum : ℕ
  shstrndx : ℕ
  deriving DecidableEq, Repr

/-- What is read of an `Elf64_Phdr`. -/
structure Phdr where
  type : ℕ
  offset : ℕ
  paddr : ℕ
  filesz : ℕ
  memsz : ℕ
  deriving DecidableEq, Repr

/-- What is read of an `Elf64_Shdr`, field by field. -/
structure Shdr where
  name : ℕ
  type : ℕ
  flags : ℕ
  addr : ℕ
  offset : ℕ
  size : ℕ
  link : ℕ
  deriving DecidableEq, Repr

/-- What is read of an `Elf64_Sym`, field by field. -/
structure Sym where
  name : ℕ
  value : ℕ
  deriving DecidableEq, Repr

def sizeofEhdr : ℕ := 64
def sizeofPhdr : ℕ := 56
def sizeofShdr : ℕ := 64
def sizeofSym : ℕ := 24

variable (μ : Mem)

def Ehdr.read (a : ℕ) : Ehdr where
  ident := (List.range 6).map fun j => μ (wrap (a + j))
  type := le μ (a + 16) 2
  machine := le μ (a + 18) 2
  entry := le μ (a + 24) 8
  phoff := le μ (a + 32) 8
  shoff := le μ (a + 40) 8
  phentsize := le μ (a + 54) 2
  phnum := le μ (a + 56) 2
  shentsize := le μ (a + 58) 2
  shnum := le μ (a + 60) 2
  shstrndx := le μ (a + 62) 2

def Phdr.read (a : ℕ) : Phdr where
  type := le μ a 4
  offset := le μ (a + 8) 8
  paddr := le μ (a + 24) 8
  filesz := le μ (a + 32) 8
  memsz := le μ (a + 40) 8

/-! ## Accesses -/

/-- A header at a pointer into the image. -/
def load {α : Type} (a len : ℕ) (read : Mem → ℕ → α) : NbM α :=
  fun μ => (read μ (wrap a), μ, [.load (wrap a) len])

def Mem.write (a len : ℕ) (byte : ℕ → UInt8) : Mem := fun x =>
  if wrap (x + 2 ^ 64 - wrap a) < len then byte (wrap (x + 2 ^ 64 - wrap a)) else μ x

def store (a len : ℕ) (byte : ℕ → UInt8) : NbM Unit :=
  fun μ => ((), μ.write a len byte, [.store (wrap a) len])

def memcpy (dst src len : ℕ) : NbM Unit := fun μ =>
  ((), μ.write dst len fun j => μ (wrap (src + j)), [.load (wrap src) len, .store (wrap dst) len])

/-- The text of a string in memory, its end included. -/
def cstr (text : List Char) : List UInt8 := text.map Char.toUInt8 ++ [0]

/-- A string in memory is compared with a text: whether they are the same, and how many bytes were
looked at. -/
def compare (μ : Mem) (a : ℕ) : List UInt8 → Bool × ℕ
  | [] => (true, 0)
  | c :: cs =>
    if μ (wrap a) = c then
      let r := compare μ (a + 1) cs
      (r.1, r.2 + 1)
    else (false, 1)

/-- `strcmp` of a string of the image with a text, up to the first difference. -/
def strcmp (a : ℕ) (text : List UInt8) : NbM Bool := fun μ =>
  ((compare μ (wrap a) text).1, μ, [.load (wrap a) (compare μ (wrap a) text).2])

def peekWords (a : ℕ) : NbM (List ℕ) := fun μ =>
  ((List.range 4).map fun i => le μ (a + 4 * i) 4, μ, [.peek (wrap a) 16])

/-! ## What is read depends on the range only -/

theorem wrap_of_lt {a : ℕ} (h : a < 2 ^ 64) : wrap a = a := Nat.mod_eq_of_lt h

theorem le_lt (a n : ℕ) : le μ a n < 2 ^ (8 * n) := by
  induction n generalizing a with
  | zero => exact Nat.one_pos
  | succ n ih =>
    have hbyte := (μ (wrap a)).toNat_lt
    have hrest := ih (a + 1)
    rw [le, show 8 * (n + 1) = 8 * n + 8 by omega, pow_add]
    omega

/-- The value is that of any other memory with the same bytes in the range. -/
def Local {α : Type} (read : Mem → ℕ → α) (len : ℕ) : Prop :=
  ∀ (μ μ' : Mem) (a : ℕ), (∀ j < len, μ (wrap (a + j)) = μ' (wrap (a + j))) → read μ a = read μ' a

theorem le_congr {μ μ' : Mem} {a n : ℕ} (h : ∀ j < n, μ (wrap (a + j)) = μ' (wrap (a + j))) :
    le μ a n = le μ' a n := by
  induction n generalizing a with
  | zero => rfl
  | succ n ih =>
    have hfirst : μ (wrap a) = μ' (wrap a) := h 0 (Nat.succ_pos n)
    rw [le, le, hfirst, ih]
    intro j hj
    rw [add_assoc, add_comm 1 j]
    exact h (j + 1) (by omega)

theorem le_congr_of {μ μ' : Mem} {a len : ℕ} (h : ∀ j < len, μ (wrap (a + j)) = μ' (wrap (a + j))) (k n : ℕ)
    (hk : k + n ≤ len) : le μ (a + k) n = le μ' (a + k) n := by
  apply le_congr
  intro j hj
  rw [add_assoc]
  exact h (k + j) (by omega)

theorem Ehdr.local_read : Local Ehdr.read sizeofEhdr := by
  intro μ μ' a h
  have hn := le_congr_of h
  have hident : (List.range 6).map (fun j => μ (wrap (a + j))) = (List.range 6).map fun j =>
      μ' (wrap (a + j)) := by
    apply List.map_congr_left
    intro j hj
    exact h j ((List.mem_range.1 hj).trans (by decide))
  unfold Ehdr.read
  rw [hident, hn 16 2 (by decide), hn 18 2 (by decide), hn 24 8 (by decide), hn 32 8 (by decide),
    hn 40 8 (by decide),
    hn 54 2 (by decide), hn 56 2 (by decide), hn 58 2 (by decide), hn 60 2 (by decide), hn 62 2 (by decide)]

theorem Phdr.local_read : Local Phdr.read sizeofPhdr := by
  intro μ μ' a h
  have hn := le_congr_of h
  have hfirst : le μ a 4 = le μ' a 4 := hn 0 4 (by decide)
  unfold Phdr.read
  rw [hfirst, hn 8 8 (by decide), hn 24 8 (by decide), hn 32 8 (by decide), hn 40 8 (by decide)]

theorem local_le (len : ℕ) : Local (fun μ a => le μ a len) len := fun _ _ _ h => le_congr h

theorem le_wrap (a n : ℕ) : le μ (wrap a) n = le μ a n := by
  have hsame : ∀ {a b : ℕ}, wrap a = wrap b → ∀ n, le μ a n = le μ b n := by
    intro a b h n
    induction n generalizing a b with
    | zero => rfl
    | succ n ih =>
      have hnext : wrap (a + 1) = wrap (b + 1) := by
        unfold wrap at *
        omega
      rw [le, le, h, ih hnext]
  exact hsame (Nat.mod_mod a _) n

/-- A comparison reads up to the first difference, and no further. -/
theorem compare_congr {μ μ' : Mem} {text : List UInt8} {a : ℕ}
    (h : ∀ j < (compare μ a text).2, μ (wrap (a + j)) = μ' (wrap (a + j))) : compare μ a text =
      compare μ' a text := by
  induction text generalizing a with
  | nil => rfl
  | cons c cs ih =>
    unfold compare at h ⊢
    by_cases hc : μ (wrap a) = c
    · rw [if_pos hc] at h
      have h0 : μ (wrap a) = μ' (wrap a) := h 0 (Nat.succ_pos _)
      have hrest : compare μ (a + 1) cs = compare μ' (a + 1) cs := by
        apply ih
        intro j hj
        rw [add_assoc, add_comm 1 j]
        exact h (j + 1) (Nat.succ_lt_succ hj)
      rw [if_pos hc, if_pos (h0 ▸ hc), hrest]
    · rw [if_neg hc] at h
      have h0 : μ (wrap a) = μ' (wrap a) := h 0 Nat.one_pos
      rw [if_neg hc, if_neg (h0 ▸ hc)]

theorem compare_pos {μ : Mem} {a : ℕ} {c : UInt8} {cs : List UInt8} : 0 < (compare μ a (c :: cs)).2 := by
  unfold compare
  split
  · exact Nat.succ_pos _
  · exact Nat.one_pos

end AieHlc.Netboot
