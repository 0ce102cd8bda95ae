import AieHlc.Netboot.Image

/-!
# Placing an image

Model of `elfload.c`: `check_headers` goes through the program headers of an image, `elf_place`
copies its segments to app memory and clears its sections without contents, `elf_patch_exit` sends
its `_exit` to the park routine. The image lies at an address `img` and has `size` bytes.

* `ehdrFault`, `phdrFault`: the checks of the headers, in the order of the source.
* `checkHeaders`, `elfPlace`, `zeroBss`, `elfPatchExit`: the functions, as programs on memory.
* `placeAndPatch`: what a launch does with the staged image.
-/

namespace AieHlc.Netboot

open AieHlc.Prog

def NB_APP_LIMIT : ℕ := 0x78000000

def ELFMAG : List UInt8 := [0x7f, 0x45, 0x4c, 0x46]
def ELFCLASS64 : UInt8 := 2
def ELFDATA2LSB : UInt8 := 1
def ET_EXEC : ℕ := 2
def EM_AARCH64 : ℕ := 183
def PT_LOAD : ℕ := 1
def SHT_SYMTAB : ℕ := 2
def SHT_NOBITS : ℕ := 8
def SHF_ALLOC : ℕ := 0x2
def SHF_TLS : ℕ := 0x400

/-- The texts of a refusal. -/
inductive PlaceError where
  | short
  | notElf
  | notElf64
  | notExec
  | phdrsOutOfRange
  | entryOutside
  | segmentOutside (i lo hi : ℕ)
  | fileRange (i : ℕ)
  deriving DecidableEq, Repr

def hex (n : ℕ) : String := "0x" ++ String.ofList (Nat.toDigits 16 n)

def PlaceError.msg : PlaceError → String
  | .short => "file shorter than an ELF header"
  | .notElf => "not an ELF file"
  | .notElf64 => "not ELF64 little endian"
  | .notExec => "not an AArch64 ET_EXEC image"
  | .phdrsOutOfRange => "program headers out of range"
  | .entryOutside => "entry point outside DDR_LOW0"
  | .segmentOutside i lo hi =>
    "PT_LOAD " ++ toString i ++ " [" ++ hex lo ++ "," ++ hex hi ++ ") outside DDR_LOW0"
  | .fileRange i => "PT_LOAD " ++ toString i ++ " file range out of bounds"

def ehdrFault (size : ℕ) (eh : Ehdr) : Option PlaceError :=
  if eh.ident.take 4 ≠ ELFMAG then some .notElf
  else if eh.ident[4]? ≠ some ELFCLASS64 ∨ eh.ident[5]? ≠ some ELFDATA2LSB then some .notElf64
  else if eh.machine ≠ EM_AARCH64 ∨ eh.type ≠ ET_EXEC then some .notExec
  else if eh.phentsize ≠ sizeofPhdr ∨ eh.phnum = 0 ∨ wrap (eh.phoff + eh.phnum * sizeofPhdr) > size then
    some .phdrsOutOfRange
  else if eh.entry ≥ NB_APP_LIMIT then some .entryOutside
  else none

/-- The checks of a program header; segments without memory are passed over. -/
def phdrFault (size i : ℕ) (ph : Phdr) : Option PlaceError :=
  if ph.type ≠ PT_LOAD ∨ ph.memsz = 0 then none
  else
    let lo := ph.paddr
    let hi := wrap (lo + ph.memsz)
    if hi < lo ∨ hi > NB_APP_LIMIT then some (.segmentOutside i lo hi)
    else if ph.filesz > ph.memsz ∨ wrap (ph.offset + ph.filesz) > size ∨
      wrap (ph.offset + ph.filesz) < ph.offset then
      some (.fileRange i)
    else none

section Loader

variable (img size : ℕ)

def loadEhdr : NbM Ehdr := load img sizeofEhdr Ehdr.read

variable (eh : Ehdr) (i : ℕ)

def loadPhdr : NbM Phdr := load (img + (eh.phoff + sizeofPhdr * i)) sizeofPhdr Phdr.read

/-- A field of `len` bytes of a header or symbol. -/
def loadField (a len : ℕ) : NbM ℕ := load a len fun μ a => le μ a len

/-- A field of section header `i`; the code reads them one by one, as far as it needs them. -/
def shField (i off len : ℕ) : NbM ℕ := loadField (img + (eh.shoff + sizeofShdr * i + off)) len

def shName : NbM ℕ := shField img eh i 0 4
def shType : NbM ℕ := shField img eh i 4 4
def shFlags : NbM ℕ := shField img eh i 8 8
def shAddr : NbM ℕ := shField img eh i 16 8
def shOffset : NbM ℕ := shField img eh i 24 8
def shSize : NbM ℕ := shField img eh i 32 8
def shLink : NbM ℕ := shField img eh i 40 4

/-- Symbol `k` of the symbols at `symtab` in the image. -/
def stName (symtab k : ℕ) : NbM ℕ := loadField (img + (symtab + sizeofSym * k)) 4
def stValue (symtab k : ℕ) : NbM ℕ := loadField (img + (symtab + sizeofSym * k + 8)) 8

/-- One round of the loop of `check_headers`. -/
def checkPhdr : NbM (Option PlaceError) :=
  loadPhdr img eh i >>= fun ph => pure (phdrFault size i ph)

/-- The checks once the ELF header is there. -/
def checkEhdr : NbM (Option PlaceError) :=
  match ehdrFault size eh with
  | some e => pure (some e)
  | none => (List.range eh.phnum).findSomeM? (checkPhdr img size eh)

/-- `check_headers`. -/
def checkHeaders : NbM (Option PlaceError) :=
  if size < sizeofEhdr then pure (some .short) else loadEhdr img >>= checkEhdr img size

/-- The first test of `zero_bss`: the section has no contents, is allocated and not empty. -/
def isBss : NbM Bool :=
  shType img eh i >>= fun type =>
    if type ≠ SHT_NOBITS then pure false
    else shFlags img eh i >>= fun flags =>
      if flags &&& SHF_ALLOC = 0 ∨ flags &&& SHF_TLS ≠ 0 then pure false
      else shSize img eh i >>= fun shsize => pure (decide (shsize ≠ 0))

def heapName : List UInt8 := cstr ['.', 'h', 'e', 'a', 'p']
def stackName : List UInt8 := cstr ['.', 's', 't', 'a', 'c', 'k']
def exitName : List UInt8 := cstr ['_', 'e', 'x', 'i', 't']

/-- The second test of `zero_bss`, by the name of the section if it can be looked up. -/
def isHeapOrStack : NbM Bool :=
  shName img eh i >>= fun name =>
    shSize img eh eh.shstrndx >>= fun strSize =>
      if name < strSize then
        shOffset img eh eh.shstrndx >>= fun strOffset =>
          if wrap (strOffset + strSize) ≤ size then
            strcmp (img + (strOffset + name)) heapName >>= fun heap =>
              if heap then pure true else strcmp (img + (strOffset + name)) stackName
          else pure false
      else pure false

/-- A range from `lo` ends outside app memory. -/
def outside (lo len : ℕ) : Prop := wrap (lo + len) < lo ∨ wrap (lo + len) > NB_APP_LIMIT

instance (lo len : ℕ) : Decidable (outside lo len) := inferInstanceAs (Decidable (_ ∨ _))

/-- The end of a round of `zero_bss`, for a section that is cleared. -/
def clearSection (zeroed i : ℕ) : NbM ℕ :=
  shAddr img eh i >>= fun addr =>
    shSize img eh i >>= fun shsize =>
      if outside addr shsize then pure zeroed
      else store addr shsize (fun _ => 0) >>= fun _ => pure (wrap (zeroed + shsize))

/-- One round of the loop of `zero_bss`. -/
def zeroSection (zeroed i : ℕ) : NbM ℕ :=
  isBss img eh i >>= fun bss =>
    if bss = false then pure zeroed
    else isHeapOrStack img size eh i >>= fun skip =>
      if skip = true then pure zeroed else clearSection img eh zeroed i

/-- `zero_bss` finds no section table. -/
def noSections : Prop :=
  eh.shoff = 0 ∨ eh.shentsize ≠ sizeofShdr ∨ eh.shstrndx ≥ eh.shnum ∨
    wrap (eh.shoff + eh.shnum * sizeofShdr) > size

instance (eh : Ehdr) : Decidable (noSections size eh) := inferInstanceAs (Decidable (_ ∨ _))

/-- `zero_bss`: the number of bytes it cleared. -/
def zeroBss : NbM ℕ :=
  loadEhdr img >>= fun eh =>
    if noSections size eh then pure 0 else (List.range eh.shnum).foldlM (zeroSection img size eh) 0

/-- One round of the copy loop of `elf_place`; segments without file contents are passed over. -/
def copySegment (placed i : ℕ) : NbM ℕ :=
  loadPhdr img eh i >>= fun ph =>
    if ph.type ≠ PT_LOAD ∨ ph.filesz = 0 then pure placed
    else memcpy ph.paddr (img + ph.offset) ph.filesz >>= fun _ => pure (wrap (placed + ph.filesz))

/-- What `elf_place` reports. -/
structure Placed where
  placed : ℕ
  zeroed : ℕ
  entry : ℕ
  deriving DecidableEq, Repr

/-- `elf_place` once the headers are accepted. -/
def placeBody : NbM (Except PlaceError Placed) :=
  (List.range eh.phnum).foldlM (copySegment img eh) 0 >>= fun placed =>
    zeroBss img size >>= fun zeroed => pure (.ok ⟨placed, zeroed, eh.entry⟩)

/-- `elf_place`; an error is a return of -1. -/
def elfPlace : NbM (Except PlaceError Placed) :=
  checkHeaders img size >>= fun fault =>
    match fault with
    | some e => pure (.error e)
    | none => loadEhdr img >>= placeBody img size

/-- The code of the BSP's `_exit`: `b .` and padding. -/
def exitCode : List ℕ := [0x14000000, 0, 0, 0]

/-- `ldr x16, #8; br x16; .quad park_addr`, by bytes. -/
def parkByte (parkAddr j : ℕ) : UInt8 :=
  UInt8.ofNat (([0x58000050, 0xD61F0200, parkAddr % 2 ^ 32, parkAddr / 2 ^ 32 % 2 ^ 32].getD
    (j / 4) 0) / 256 ^ (j % 4))

/-- An `_exit` that is found is patched, unless it lies outside or is not the expected code. -/
def patchAt (parkAddr a : ℕ) : NbM Bool :=
  if wrap (a + 16) > NB_APP_LIMIT ∨ a % 4 ≠ 0 then pure false
  else peekWords a >>= fun w =>
    if w ≠ exitCode then pure false else store a 16 (parkByte parkAddr) >>= fun _ => pure true

/-- One symbol of the inner loop of `elf_patch_exit`; the strings are `strSize` bytes at `strOffset`. -/
def patchSymbol (parkAddr symtab strOffset strSize k : ℕ) : NbM (Option Bool) :=
  stName img symtab k >>= fun name =>
    if name ≥ strSize then pure none
    else strcmp (img + (strOffset + name)) exitName >>= fun eq =>
      if eq then stValue img symtab k >>= fun a => patchAt parkAddr a >>= fun r => pure (some r)
        else pure none

/-- The inner loop, once the symbols are known to end in the image; their strings must do so too. -/
def patchSymtab (parkAddr symtab symSize link : ℕ) : NbM (Option Bool) :=
  shOffset img eh link >>= fun strOffset =>
    shSize img eh link >>= fun strSize =>
      if wrap (strOffset + strSize) > size then pure (some false)
      else (List.range (symSize / sizeofSym)).findSomeM? (patchSymbol img parkAddr symtab strOffset strSize)

/-- One section of the outer loop. -/
def patchSection (parkAddr i : ℕ) : NbM (Option Bool) :=
  shType img eh i >>= fun type =>
    if type ≠ SHT_SYMTAB then pure none
    else shLink img eh i >>= fun link =>
      if link ≥ eh.shnum then pure none
      else shOffset img eh i >>= fun symtab =>
        shSize img eh i >>= fun symSize =>
          if wrap (symtab + symSize) > size then pure (some false)
          else patchSymtab img size eh parkAddr symtab symSize link

/-- `elf_patch_exit`. -/
def elfPatchExit (parkAddr : ℕ) : NbM Bool :=
  loadEhdr img >>= fun eh =>
    if eh.shoff = 0 ∨ wrap (eh.shoff + eh.shnum * sizeofShdr) > size then pure false
    else (List.range eh.shnum).findSomeM? (patchSection img size eh parkAddr) >>= fun r => pure (r.getD false)

/-- The image is placed, and its `_exit` patched once it is. -/
def placeAndPatch (parkAddr : ℕ) : NbM (Except PlaceError (Placed × Bool)) :=
  elfPlace img size >>= fun r =>
    match r with
    | .error e => pure (.error e)
    | .ok p => elfPatchExit img size parkAddr >>= fun patched => pure (.ok (p, patched))

end Loader

end AieHlc.Netboot
