import AieHlc.Packet.PktizeRoundTrip

/-!
# Kernel images and where they go

Model of the ELF images the control plane loads: program headers and bytes, the device
description `rt_cpe_dev`, and `rt_cpe_target`, which maps a load address to an
address of the tile (`aie_ctrlpkt_encode.c`).

* `rtCpeTarget`: the target as the code computes it, with `RT_CPE_SKIP_ADDR` for
  another tile.
* `ownAddr`: the address in this tile, if the load address is one of this tile.
* `segWord`, `segWrites`: the words of a segment and their addresses.
* `resetWrites`: the reset sequence of the core and its DMA channels.
* `loaded`: the segments the encoders load.
-/

namespace AieHlc.Elf

open AieHlc.Word AieHlc.Packet

/-- `rt_cpe_dev`. -/
structure CpeDev where
  progMemSize : ℕ
  progMemHostOff : ℕ
  dataMemAddr : ℕ
  dataMemSize : ℕ
  coreCtrlOff : ℕ
  coreRstMask : ℕ
  checkerboard : Bool
  dmaChCtrlOff : ℕ
  dmaChStride : ℕ
  dmaNch : ℕ
  dmaChRstMask : ℕ

/-- What is read of an `Elf32_Phdr`; the file size is a 32-bit field. -/
structure Phdr where
  type : ℕ
  offset : ℕ
  paddr : ℕ
  filesz : ℕ
  filesz_lt : filesz < 2 ^ 32

/-- An image: its program headers, in number a 16-bit `e_phnum`, and its bytes. -/
structure Image where
  phdrs : List Phdr
  byte : ℕ → ℕ
  phnum_lt : phdrs.length < 2 ^ 16

def PT_LOAD : ℕ := 1

def RT_CPE_SKIP_ADDR : ℕ := 0xFFFFFFFF

/-! ### Targets -/

section Target

variable (d : CpeDev) (col row : ℤ) (paddr : ℕ)

/-- The load address is outside the four data memories a core sees. -/
def OutsideData : Prop := paddr < d.dataMemAddr ∨ paddr ≥ u32 (d.dataMemAddr + u32 (d.dataMemSize * 4))

instance : Decidable (OutsideData d paddr) := inferInstanceAs (Decidable (_ ∨ _))

/-- The data memory a load address lies in: 4 south, 5 west, 6 north, 7 east. -/
def memDir : ℕ := paddr / d.dataMemSize % 256

/-- The core's own data memory is to its east, or to its west on even rows of a
checkerboard. -/
def rowParity : Bool := if d.checkerboard then row % 2 ≠ 0 else true

/-- The tile whose data memory is in direction `memDir`. -/
def targetTile : Option (ℤ × ℤ) :=
  if memDir d paddr = 4 then some (col, row - 1)
  else if memDir d paddr = 5 ∧ rowParity d row then some (col - 1, row)
  else if memDir d paddr = 6 then some (col, row + 1)
  else if memDir d paddr = 7 ∧ ¬rowParity d row then some (col + 1, row)
  else if memDir d paddr < 4 ∨ memDir d paddr > 7 then none
  else some (col, row)

/-- `rt_cpe_target`: none for the return with -1. -/
def rtCpeTarget : Option ℕ :=
  if paddr < d.progMemSize then some (u32 (d.progMemHostOff + paddr))
  else if OutsideData d paddr then none
  else (targetTile d col row paddr).map fun t =>
    if t.1 ≠ col ∨ t.2 ≠ row then RT_CPE_SKIP_ADDR else paddr &&& u32sub d.dataMemSize 1

/-- The data memory in direction `memDir` is the core's own. -/
def ownMem : Prop := ¬OutsideData d paddr ∧
  (memDir d paddr = 5 ∧ ¬rowParity d row ∨ memDir d paddr = 7 ∧ rowParity d row)

instance : Decidable (ownMem d row paddr) := inferInstanceAs (Decidable (_ ∧ _))

/-- The address in this tile of a load address: program memory, or the core's own data
memory. -/
def ownAddr : Option ℕ :=
  if paddr < d.progMemSize then some (u32 (d.progMemHostOff + paddr))
  else if ownMem d row paddr then some (paddr &&& u32sub d.dataMemSize 1)
  else none

variable {d col row paddr}

theorem targetTile_own (h : ownMem d row paddr) : targetTile d col row paddr = some (col, row) := by
  unfold targetTile
  rcases h.2 with ⟨hdir, hpar⟩ | ⟨hdir, hpar⟩ <;> simp [hdir, hpar]

theorem targetTile_other (hd : ¬OutsideData d paddr) (h : ¬ownMem d row paddr) {t : ℤ × ℤ}
    (ht : targetTile d col row paddr = some t) : t.1 ≠ col ∨ t.2 ≠ row := by
  have hdir : ¬(memDir d paddr = 5 ∧ ¬rowParity d row) ∧ ¬(memDir d paddr = 7 ∧ rowParity d row) := by
    refine ⟨fun h5 => h ⟨hd, .inl h5⟩, fun h7 => h ⟨hd, .inr h7⟩⟩
  revert ht
  unfold targetTile
  -- every branch but the last leaves the tile; the last is the own memory
  split_ifs with h4 h5 h6 h7 hout <;> intro ht
  · obtain rfl := Option.some.inj ht
    exact .inr (by show row - 1 ≠ row; omega)
  · obtain rfl := Option.some.inj ht
    exact .inl (by show col - 1 ≠ col; omega)
  · obtain rfl := Option.some.inj ht
    exact .inr (by show row + 1 ≠ row; omega)
  · obtain rfl := Option.some.inj ht
    exact .inl (by show col + 1 ≠ col; omega)
  · exact nomatch ht
  · exfalso
    have hcase : memDir d paddr = 5 ∨ memDir d paddr = 7 := by omega
    rcases hcase with h5' | h7'
    · exact hdir.1 ⟨h5', fun hp => h5 ⟨h5', hp⟩⟩
    · exact hdir.2 ⟨h7', by_contra fun hp => h7 ⟨h7', hp⟩⟩

theorem rtCpeTarget_own {a : ℕ} (h : ownAddr d row paddr = some a) :
    rtCpeTarget d col row paddr = some a := by
  unfold ownAddr at h
  unfold rtCpeTarget
  by_cases hpm : paddr < d.progMemSize
  · rw [if_pos hpm] at h ⊢
    exact h
  · rw [if_neg hpm] at h ⊢
    by_cases hown : ownMem d row paddr
    · rw [if_pos hown] at h
      rw [if_neg hown.1, targetTile_own hown, Option.map_some, if_neg (by simp)]
      exact h
    · rw [if_neg hown] at h
      exact nomatch h

theorem rtCpeTarget_other {a : ℕ} (h : ownAddr d row paddr = none)
    (ha : rtCpeTarget d col row paddr = some a) :
    a = RT_CPE_SKIP_ADDR := by
  unfold ownAddr at h
  unfold rtCpeTarget at ha
  by_cases hpm : paddr < d.progMemSize
  · rw [if_pos hpm] at h
    exact nomatch h
  · rw [if_neg hpm] at h ha
    have hown : ¬ownMem d row paddr := by
      intro hown
      rw [if_pos hown] at h
      exact nomatch h
    by_cases hout : OutsideData d paddr
    · rw [if_pos hout] at ha
      exact nomatch ha
    · rw [if_neg hout] at ha
      obtain ⟨t, ht, rfl⟩ := Option.map_eq_some_iff.1 ha
      exact if_pos (targetTile_other hout hown ht)

end Target

/-! ### Segments -/

def leWord (b : ℕ → ℕ) : ℕ := b 0 + b 1 * 2 ^ 8 + b 2 * 2 ^ 16 + b 3 * 2 ^ 24

section Segment

variable (byte : ℕ → ℕ) (ph : Phdr)

/-- Word `k` of a segment, padded with zeros to a whole word. -/
def segWord (k : ℕ) : ℕ := leWord fun b => if 4 * k + b < ph.filesz then byte (ph.offset + (4 * k + b)) else 0

def segCount : ℕ := (ph.filesz + 3) / 4

/-- The writes of a segment loaded at `addr`. -/
def segWrites (s : Phdr × ℕ) : List (ℕ × ℕ) :=
  (List.range (segCount s.1)).map fun k => ((s.2 + 4 * k) % 2 ^ 20, segWord byte s.1 k)

/-- The last word of a segment and its 32-bit address. -/
def segLast (s : Phdr × ℕ) : ℕ × ℕ :=
  (u32 (s.2 + 4 * (segCount s.1 - 1)), segWord byte s.1 (segCount s.1 - 1))

/-- The accesses of a segment loaded at `addr`. -/
def segAccs (h : ℕ) (s : Phdr × ℕ) : List Access :=
  plainAccs h s.2 (some (segWord byte s.1)) (segCount s.1) (chunkCount (segCount s.1))

end Segment

section Image

variable (d : CpeDev) (col row : ℤ) (elf : Image)

/-- The header is loaded at all. -/
def Phdr.loadable (ph : Phdr) : Bool := ph.type = PT_LOAD ∧ ph.filesz ≠ 0

/-- The segments for this tile, with their addresses. -/
def owned (phs : List Phdr) : List (Phdr × ℕ) :=
  (phs.filter Phdr.loadable).filterMap fun ph => (ownAddr d row ph.paddr).map fun a => (ph, a)

/-- The segments the encoders load: an address that happens to be the mark for other
tiles is taken for one. -/
def loaded (phs : List Phdr) : List (Phdr × ℕ) := (owned d row phs).filter fun s => s.2 ≠ RT_CPE_SKIP_ADDR

/-- The register writes of `cpe_reset`: reset the core, reset every DMA channel, release
every DMA channel, release the core. -/
def resetWrites : List (ℕ × ℕ) :=
  (d.coreCtrlOff, d.coreRstMask) ::
    ((List.range 2).flatMap fun v => (List.range (u32 (2 * d.dmaNch))).map fun c =>
      (u32 (d.dmaChCtrlOff + u32 (c * d.dmaChStride)), if v ≠ 0 then 0 else d.dmaChRstMask)) ++
    [(d.coreCtrlOff, 0)]

def putAcc (h : ℕ) (w : ℕ × ℕ) : Access := chunkAccess h w.1 (some fun _ => w.2) 1 0

/-- The accesses of a body: the reset sequence if wanted, and the segments. -/
def bodyAccs (h : ℕ) (wantReset : Bool) : List Access :=
  (if wantReset then (resetWrites d).map (putAcc h) else []) ++ (loaded d row elf.phdrs).flatMap
    (segAccs elf.byte h)

def bodyWrites (wantReset : Bool) : List (ℕ × ℕ) :=
  (if wantReset then (resetWrites d).map fun w => (w.1 % 2 ^ 20, w.2) else []) ++
    (owned d row elf.phdrs).flatMap (segWrites elf.byte)

end Image

end AieHlc.Elf
