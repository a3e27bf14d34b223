import MexOS.Machine.Pages
import MexOS.Mm.Pmm
import MexOS.Mm.Vmm

/-! The operations of `mm/vmm.c` on directories, tables and pages, with the
bitmap of the frame allocator in the same memory. -/

namespace MexOS.Mm

open MexOS.Machine

/-- What an observer of a run sees: the blocks that leave the frame allocator
and come back to it, and each access behind `phys_to_virt` with whether the
processor finds the frame at that address. -/
inductive Event where
  | allocated (block : Word)
  | freed (block : Word)
  | touched (address : Word) (mapped : Bool)
deriving DecidableEq, Repr

/-- The statics of `vmm.c` and `pmm.c` over one memory, with CR3 and the paging
bit of CR0. `kernel_directory_phys` is only ever assigned from
`kernel_directory`, and a 32-bit memory size has fewer than `2^20` blocks. The
trace is not part of the program; its newest event stands first. -/
structure Paging extends Vmm where
  bitmapAddr : Word
  bitmapSize : Word
  memorySize : Word
  usedBlocks : Word
  maxBlocks : Word
  cr3 : Word
  paging : Bool
  trace : List Event
  direct : kernelDirectoryPhys = 0 ∨ kernelDirectory < kernelVirtualBase ∨ kernelDirectory = kernelDirectoryPhys
  blocks : maxBlocks.toNat < 2 ^ 20

namespace Paging

/-- The address of word `word` of the bitmap. -/
def bitmapWord (p : Paging) (word : Nat) : Word := p.bitmapAddr + BitVec.ofNat 32 (4 * word)

/-- The frame allocator as its own functions see it. -/
def pmm (p : Paging) : Pmm :=
  { bitmap := fun word => loadWord p.mem (p.bitmapWord word)
    bitmapAddr := p.bitmapAddr
    bitmapSize := p.bitmapSize
    memorySize := p.memorySize
    usedBlocks := p.usedBlocks
    maxBlocks := p.maxBlocks }

def bitmapSet (p : Paging) (bit : Word) : Paging :=
  let word := bit.toNat / 32
  { p with mem := storeWord p.mem (p.bitmapWord word) (p.pmm.bitmap word ||| 1#32 <<< (bit.toNat % 32)) }

def bitmapUnset (p : Paging) (bit : Word) : Paging :=
  let word := bit.toNat / 32
  { p with mem := storeWord p.mem (p.bitmapWord word) (p.pmm.bitmap word &&& ~~~(1#32 <<< (bit.toNat % 32))) }

def allocBlock (p : Paging) : Word × Paging :=
  if p.pmm.getFreeBlockCount = 0 then (0, p)
  else
    match p.pmm.bitmapFirstFree with
    | none => (0, p)
    | some frame =>
      let marked := p.bitmapSet (BitVec.ofNat 32 frame)
      let block := BitVec.ofNat 32 (frame * pmmBlockSize)
      (block, { marked with usedBlocks := marked.usedBlocks + 1, trace := .allocated block :: marked.trace })

def freeBlock (p : Paging) (block : Word) : Paging :=
  let frame := BitVec.ofNat 32 (block.toNat / pmmBlockSize)
  let cleared := p.bitmapUnset frame
  { cleared with usedBlocks := cleared.usedBlocks - 1, trace := .freed block :: cleared.trace }

/-- The translation that the processor makes. -/
def walk (p : Paging) (address : Word) : Option Word :=
  if p.paging then
    let directory := pageWord p.mem (pageOf p.cr3) (pageDirectoryIndex address)
    if directory &&& pagePresent = 0 then none
    else
      let entry := pageWord p.mem (pageOf directory) (pageTableIndex address)
      if entry &&& pagePresent = 0 then none else some (pageOf entry ||| (address &&& 0xFFF))
  else some address

/-- The frame that `phys_to_virt` puts at the address is there in the active
directory. -/
def mapped (p : Paging) (address : Word) : Bool := (p.walk address).map p.physToVirt == some address

def touch (p : Paging) (address : Word) : Paging := { p with trace := .touched address (p.mapped address) :: p.trace }

/-- An access through a pointer that came from `phys_to_virt`. Up to the first
access that is not mapped, memory behaves as if it was addressed directly. -/
def read (p : Paging) (address : Word) : Word × Paging := (loadWord p.mem address, p.touch address)

def write (p : Paging) (address value : Word) : Paging :=
  { p.touch address with mem := storeWord p.mem address value }

/-- `memset(address, 0, 4096)`. -/
def clearPage (p : Paging) (address : Word) : Paging :=
  { p.touch address with mem := memset p.mem address 0 4096 }

/-- `memcpy(target, source, PAGE_SIZE)`. -/
def copyPage (p : Paging) (target source : Word) : Paging :=
  { (p.touch source).touch target with mem := memcpy p.mem target source 4096 }

/-- A pointer to the table, or NULL. -/
def getPageTable (p : Paging) (pageDir virtAddr : Word) (create : Bool) : Word × Paging :=
  let slot := p.physToVirt pageDir + 4 * pageDirectoryIndex virtAddr
  let entry := p.read slot
  if entry.1 &&& pagePresent ≠ 0 then (p.physToVirt (pageOf entry.1), entry.2)
  else if create then
    let table := entry.2.allocBlock
    if table.1 = 0 then (0, table.2)
    else
      let pointer := p.physToVirt table.1
      let flags := if virtAddr < kernelVirtualBase then pagePresent ||| pageWrite ||| pageUser
        else pagePresent ||| pageWrite
      (pointer, (table.2.clearPage pointer).write slot (table.1 ||| flags))
  else (0, entry.2)

/-- The `invlpg` at the end has no effect here: `walk` keeps no translations. -/
def mapPage (p : Paging) (pageDir virtAddr physAddr flags : Word) : Int × Paging :=
  let table := p.getPageTable pageDir (pageOf virtAddr) true
  if table.1 = 0 then (-1, table.2)
  else (0, table.2.write (table.1 + 4 * pageTableIndex (pageOf virtAddr)) (pageOf physAddr ||| flags))

def unmapPage (p : Paging) (pageDir virtAddr : Word) : Paging :=
  let table := p.getPageTable pageDir (pageOf virtAddr) false
  if table.1 = 0 then table.2
  else table.2.write (table.1 + 4 * pageTableIndex (pageOf virtAddr)) 0

def getPhysicalAddress (p : Paging) (pageDir virtAddr : Word) : Word × Paging :=
  let table := p.getPageTable pageDir virtAddr false
  if table.1 = 0 then (0, table.2)
  else
    let entry := table.2.read (table.1 + 4 * pageTableIndex virtAddr)
    if entry.1 &&& pagePresent = 0 then (0, entry.2)
    else (pageOf entry.1 ||| (virtAddr &&& 0xFFF), entry.2)

def isMapped (p : Paging) (pageDir virtAddr : Word) : Bool × Paging :=
  let table := p.getPageTable pageDir virtAddr false
  if table.1 = 0 then (false, table.2)
  else
    let entry := table.2.read (table.1 + 4 * pageTableIndex virtAddr)
    (entry.1 &&& pagePresent != 0, entry.2)

def allocPage (p : Paging) (pageDir virtAddr flags : Word) : Int × Paging :=
  let phys := p.allocBlock
  if phys.1 = 0 then (-1, phys.2)
  else
    let result := phys.2.mapPage pageDir virtAddr phys.1 (flags ||| pagePresent)
    if result.1 ≠ 0 then (-1, result.2.freeBlock phys.1) else (0, result.2)

def freePage (p : Paging) (pageDir virtAddr : Word) : Paging :=
  let phys := p.getPhysicalAddress pageDir virtAddr
  let released := if phys.1 ≠ 0 then phys.2.freeBlock (pageOf phys.1) else phys.2
  released.unmapPage pageDir virtAddr

/-- The turn of a copying loop: `target[i] = source[i]`. -/
def copyEntry (source target : Word) (p : Paging) (i : Nat) : Paging :=
  let entry := p.read (source + 4 * BitVec.ofNat 32 i)
  entry.2.write (target + 4 * BitVec.ofNat 32 i) entry.1

def createAddressSpace (p : Paging) : Word × Paging :=
  let pageDir := p.allocBlock
  if pageDir.1 = 0 then (0, pageDir.2)
  else
    let cleared := pageDir.2.clearPage (p.physToVirt pageDir.1)
    if p.kernelDirectory = 0 then (pageDir.1, cleared)
    else (pageDir.1, (List.range' 768 256).foldl
      (copyEntry (p.physToVirt p.kernelDirectory) (p.physToVirt pageDir.1)) cleared)

/-- Free the page of one table entry. -/
def destroyEntry (table : Word) (p : Paging) (j : Nat) : Paging :=
  let entry := p.read (table + 4 * BitVec.ofNat 32 j)
  if entry.1 &&& pagePresent ≠ 0 then entry.2.freeBlock (pageOf entry.1) else entry.2

/-- Free the table of one directory entry with its pages. -/
def destroyTable (dir : Word) (p : Paging) (i : Nat) : Paging :=
  let entry := p.read (dir + 4 * BitVec.ofNat 32 i)
  if entry.1 &&& pagePresent ≠ 0 then
    let tablePhys := pageOf entry.1
    ((List.range 1024).foldl (destroyEntry (p.physToVirt tablePhys)) entry.2).freeBlock tablePhys
  else entry.2

def destroyAddressSpace (p : Paging) (pageDir : Word) : Paging :=
  if pageDir = 0 ∨ pageDir = p.kernelDirectory then p
  else ((List.range 768).foldl (destroyTable (p.physToVirt pageDir)) p).freeBlock pageDir

def switchAddressSpace (p : Paging) (pageDir : Word) : Paging :=
  if pageDir = 0 then p else { p with currentDirectory := pageDir, cr3 := pageDir }

/-- The loop over the entries of one table; `false` when a page could not be
allocated. The entry of the source is read again after each call. -/
def cloneEntries (source target : Word) : List Nat → Paging → Bool × Paging
  | [], p => (true, p)
  | j :: rest, p =>
    let place := source + 4 * BitVec.ofNat 32 j
    let slot := target + 4 * BitVec.ofNat 32 j
    let entry := p.read place
    if entry.1 &&& pagePresent ≠ 0 then
      let page := entry.2.allocBlock
      if page.1 = 0 then (false, page.2)
      else
        let found := page.2.read place
        let copied := found.2.copyPage (p.physToVirt page.1) (p.physToVirt (pageOf found.1))
        let flags := copied.read place
        cloneEntries source target rest (flags.2.write slot (page.1 ||| (flags.1 &&& 0xFFF)))
    else cloneEntries source target rest (entry.2.write slot 0)

/-- The loop over the tables; the directory `dst` is given up when a table or
a page could not be allocated. -/
def cloneTables (src dst : Word) : List Nat → Paging → Bool × Paging
  | [], p => (true, p)
  | i :: rest, p =>
    let place := p.physToVirt src + 4 * BitVec.ofNat 32 i
    let entry := p.read place
    if entry.1 &&& pagePresent = 0 then cloneTables src dst rest entry.2
    else
      let table := entry.2.allocBlock
      if table.1 = 0 then (false, table.2.destroyAddressSpace dst)
      else
        let entries := cloneEntries (p.physToVirt (pageOf entry.1)) (p.physToVirt table.1) (List.range 1024) table.2
        if entries.1 then
          let flags := entries.2.read place
          cloneTables src dst rest
            (flags.2.write (p.physToVirt dst + 4 * BitVec.ofNat 32 i) (table.1 ||| (flags.1 &&& 0xFFF)))
        else (false, (entries.2.freeBlock table.1).destroyAddressSpace dst)

def cloneAddressSpace (p : Paging) (src : Word) : Word × Paging :=
  let dst := p.createAddressSpace
  if dst.1 = 0 then (0, dst.2)
  else
    let tables := cloneTables src dst.1 (List.range 768) dst.2
    (if tables.1 then dst.1 else 0, tables.2)

/-- One turn of the loop that maps the first megabytes; `false` is the early
return. -/
def identityTable (dir : Word) (tableIdx : Nat) (p : Paging) : Bool × Paging :=
  let table := p.allocBlock
  if table.1 = 0 then (false, table.2)
  else
    let pointer := p.physToVirt table.1
    let zeroed := (List.range 1024).foldl (fun p i => p.write (pointer + 4 * BitVec.ofNat 32 i) 0) table.2
    let filled := (List.range 1024).foldl (fun p i => p.write (pointer + 4 * BitVec.ofNat 32 i)
      (BitVec.ofNat 32 (tableIdx * 0x400000 + i * 4096) ||| pagePresent ||| pageWrite)) zeroed
    (true, filled.write (dir + 4 * BitVec.ofNat 32 tableIdx) (table.1 ||| pagePresent ||| pageWrite))

/-- The statics as `vmm_init` sets them. -/
def setKernelDirectory (p : Paging) (directory : Word) : Paging :=
  { p with
    kernelDirectory := directory
    kernelDirectoryPhys := directory
    currentDirectory := directory
    direct := .inr (.inr rfl) }

def init (p : Paging) : Paging :=
  let directory := p.allocBlock
  if directory.1 = 0 then { directory.2 with kernelDirectory := 0, direct := .inr (.inl (by decide)) }
  else
    let p := directory.2.setKernelDirectory directory.1
    let dir := p.physToVirt directory.1
    let zeroed := (List.range 1024).foldl (fun p i => p.write (dir + 4 * BitVec.ofNat 32 i) 0) p
    let first := identityTable dir 0 zeroed
    if first.1 then
      let second := identityTable dir 1 first.2
      if second.1 then { second.2 with cr3 := directory.1, paging := true } else second.2
    else first.2

end Paging

end MexOS.Mm
