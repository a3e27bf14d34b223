import MexOS.Machine.Bytes
import MexOS.Machine.Monitored
import MexOS.Mm.AddressSpace

/-! The loader of `core/elf.c`. -/

namespace MexOS.Core

open MexOS.Machine MexOS.Mm

def elfMagic : List Byte := [0x7F, 0x45, 0x4C, 0x46]
def elfClass32 : Byte := 1
def elfData2Lsb : Byte := 1
def etExec : BitVec 16 := 2
def em386 : BitVec 16 := 3
def ptLoad : Word := 1
def pfW : Word := 2

namespace Elf32Header

-- offsets into the structure, and its size
def eType : Nat := 16
def eMachine : Nat := 18
def eEntry : Nat := 24
def ePhoff : Nat := 28
def ePhnum : Nat := 44
def bytes : Nat := 52

end Elf32Header

namespace Elf32Phdr

-- offsets into the structure, and its size
def pType : Nat := 0
def pOffset : Nat := 4
def pVaddr : Nat := 8
def pFilesz : Nat := 16
def pMemsz : Nat := 20
def pFlags : Nat := 24
def bytes : Nat := 32

end Elf32Phdr

/-- A byte of the file that is read, by its index; a page that is given a frame;
a byte that is stored, with whether the directory that is loaded into maps its
page then. -/
inductive ElfAccess where
  | read (index : Nat)
  | mapped (page : Word)
  | wrote (address : Word) (mapped : Bool)
deriving DecidableEq, Repr

/-- A part of the loader with its accesses; it stops where the processor
faults. -/
abbrev Loading := Monitored ElfAccess

structure ElfLoadResult where
  entryPoint : Word
  brk : Word

namespace Loading

open Monitored

def readByte (data : Bytes) (index : Nat) : Loading Byte := ⟨some (data index), [.read index]⟩

def readHalf (data : Bytes) (index : Nat) : Loading (BitVec 16) :=
  ⟨some (data (index + 1) ++ data index), [.read index, .read (index + 1)]⟩

def readWord (data : Bytes) (index : Nat) : Loading Word :=
  ⟨some (data.word index), [.read index, .read (index + 1), .read (index + 2), .read (index + 3)]⟩

/-- The tests of `e_ident` from byte `index` on. -/
def identMatches (data : Bytes) : Nat → List Byte → Loading Bool
  | _, [] => pure true
  | index, expected :: rest => do
    let found ← readByte data index
    if found ≠ expected then pure false else identMatches data (index + 1) rest

def elfValidate (data : Bytes) : Loading Int := do
  let ident ← identMatches data 0 (elfMagic ++ [elfClass32, elfData2Lsb])
  if ident = false then pure (-1)
  else do
    let type ← readHalf data Elf32Header.eType
    if type ≠ etExec then pure (-1)
    else do
      let machine ← readHalf data Elf32Header.eMachine
      if machine ≠ em386 then pure (-1) else pure 0

/-- The loop that maps the pages of a segment; false when one could not be
allocated. -/
def mapPages (pageDir flags vaddrEnd : Word) : Nat → Word → Paging → Loading (Bool × Paging)
  | 0, _, _ => stop
  | turns + 1, page, p =>
    if page < vaddrEnd then
      let found := p.isMapped pageDir page
      if found.1 then mapPages pageDir flags vaddrEnd turns (page + pageSize) found.2
      else
        let allocated := found.2.allocPage pageDir page flags
        if allocated.1 ≠ 0 then pure (false, allocated.2)
        else do
          tell (.mapped page)
          mapPages pageDir flags vaddrEnd turns (page + pageSize) allocated.2
    else pure (true, p)

/-- A store through a plain virtual address, in the active directory. -/
def store (pageDir : Word) (p : Paging) (address : Word) (value : Byte) : Loading Paging :=
  ⟨(p.walk address).map fun frame => { p with mem := storeByte p.mem frame value },
    [.wrote address (p.isMapped pageDir address).1]⟩

/-- `memcpy(dst, data + offset, i + left)` from byte `i` on. -/
def copyBytes (data : Bytes) (pageDir dst : Word) (offset : Nat) : Nat → Nat → Paging → Loading Paging
  | 0, _, p => pure p
  | left + 1, i, p => do
    let value ← readByte data (offset + i)
    let p ← store pageDir p (dst + BitVec.ofNat 32 i) value
    copyBytes data pageDir dst offset left (i + 1) p

/-- `memset(dst, 0, i + left)` from byte `i` on. -/
def clearBytes (pageDir dst : Word) : Nat → Nat → Paging → Loading Paging
  | 0, _, p => pure p
  | left + 1, i, p => do
    let p ← store pageDir p (dst + BitVec.ofNat 32 i) 0
    clearBytes pageDir dst left (i + 1) p

/-- The part of a segment that comes from the file; false when it lies outside. -/
def copyFile (data : Bytes) (size pageDir : Word) (phdr : Nat) (vaddr filesz : Word) (p : Paging) :
    Loading (Bool × Paging) :=
  if filesz = 0 then pure (true, p)
  else do
    let offset ← readWord data (phdr + Elf32Phdr.pOffset)
    if offset + filesz > size then pure (false, p)
    else do
      let p ← copyBytes data pageDir vaddr offset.toNat filesz.toNat 0 p
      pure (true, p)

/-- The rest of a segment. -/
def clearBss (pageDir vaddr filesz memsz : Word) (p : Paging) : Loading Paging :=
  if memsz > filesz then clearBytes pageDir (vaddr + filesz) (memsz - filesz).toNat 0 p else pure p

def segmentFlags (pFlags : Word) : Word :=
  if pFlags &&& pfW ≠ 0 then pagePresent ||| pageUser ||| pageWrite else pagePresent ||| pageUser

/-- The address behind the last page of a segment. -/
def segmentEnd (vaddr memsz : Word) : Word := pageOf (vaddr + memsz + 0xFFF)

/-- As many pages as there are, and one turn that finds no more of them. -/
def maxPages : Nat := 2 ^ 20 + 1

/-- What a turn of the loop over the program headers comes to: false for the
early return, and the `brk` so far. -/
structure Turn where
  goesOn : Bool
  brk : Word
  mm : Paging

/-- A turn for the header at `phdr`. -/
def loadSegment (data : Bytes) (size pageDir : Word) (phdr : Nat) (p : Paging) (brk : Word) : Loading Turn := do
  let type ← readWord data (phdr + Elf32Phdr.pType)
  if type ≠ ptLoad then pure ⟨true, brk, p⟩
  else do
    let memsz ← readWord data (phdr + Elf32Phdr.pMemsz)
    if memsz = 0 then pure ⟨true, brk, p⟩
    else do
      let vaddr ← readWord data (phdr + Elf32Phdr.pVaddr)
      if vaddr ≥ kernelVirtualBase then pure ⟨false, brk, p⟩
      else do
        let pFlags ← readWord data (phdr + Elf32Phdr.pFlags)
        let pages ← mapPages pageDir (segmentFlags pFlags) (segmentEnd vaddr memsz) maxPages (pageOf vaddr) p
        if pages.1 = false then pure ⟨false, brk, pages.2⟩
        else do
          let filesz ← readWord data (phdr + Elf32Phdr.pFilesz)
          let copied ← copyFile data size pageDir phdr vaddr filesz pages.2
          if copied.1 = false then pure ⟨false, brk, copied.2⟩
          else do
            let cleared ← clearBss pageDir vaddr filesz memsz copied.2
            pure ⟨true, if vaddr + memsz > brk then vaddr + memsz else brk, cleared⟩

/-- The loop over the program headers, with `left` of them to go. -/
def loadSegments (data : Bytes) (size pageDir : Word) (phoff : Nat) : Nat → Nat → Paging → Word → Loading Turn
  | 0, _, p, brk => pure ⟨true, brk, p⟩
  | left + 1, i, p, brk => do
    let turn ← loadSegment data size pageDir (phoff + Elf32Phdr.bytes * i) p brk
    if turn.goesOn = false then pure turn
    else loadSegments data size pageDir phoff left (i + 1) turn.mm turn.brk

/-- `data` and `result` are not NULL. The bytes of the file are those at the time of
the call; where it lies apart from what is stored to, they stay so. A failed
validation is logged with the entry point. -/
def elfLoad (data : Bytes) (size pageDir : Word) (p : Paging) (result : ElfLoadResult) :
    Loading (Int × ElfLoadResult × Paging) :=
  if pageDir = 0 then pure (-1, result, p)
  else if size.toNat < Elf32Header.bytes then pure (-1, result, p)
  else do
    let valid ← elfValidate data
    if valid ≠ 0 then do
      let _ ← readWord data Elf32Header.eEntry
      pure (-1, result, p)
    else do
      let phoff ← readWord data Elf32Header.ePhoff
      let phnum ← readHalf data Elf32Header.ePhnum
      if phoff = 0 ∨ phnum = 0 then pure (-1, result, p)
      else if phoff + phnum.setWidth 32 * BitVec.ofNat 32 Elf32Phdr.bytes > size then pure (-1, result, p)
      else do
        let entry ← readWord data Elf32Header.eEntry
        let loaded ← loadSegments data size pageDir phoff.toNat phnum.toNat 0 p 0
        if loaded.goesOn = false then pure (-1, { entryPoint := entry, brk := loaded.brk }, loaded.mm)
        else pure (0, { entryPoint := entry, brk := pageOf (loaded.brk + 0xFFF) }, loaded.mm)

end Loading

end MexOS.Core
