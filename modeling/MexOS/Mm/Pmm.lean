import MexOS.Machine.Bitmap
import MexOS.Machine.Memory

/-! The physical memory manager of `mm/pmm.c`. -/

namespace MexOS.Mm

open MexOS.Machine

def pmmBlockSize : Nat := 4096
def pmmBlocksPerByte : Nat := 8

/-- The statics of `pmm.c`. `bitmap` is the memory from `pmm_bitmap` on, also
past the bytes that belong to the allocator. -/
structure Pmm where
  bitmap : Bitmap 32
  bitmapAddr : Word
  bitmapSize : Word
  memorySize : Word
  usedBlocks : Word
  maxBlocks : Word

namespace Pmm

def bitmapSet (pmm : Pmm) (bit : Word) : Pmm := { pmm with bitmap := pmm.bitmap.set bit.toNat }

def bitmapUnset (pmm : Pmm) (bit : Word) : Pmm := { pmm with bitmap := pmm.bitmap.clear bit.toNat }

def bitmapTest (pmm : Pmm) (bit : Word) : Bool :=
  pmm.bitmap (bit.toNat / 32) &&& 1#32 <<< (bit.toNat % 32) != 0

/-- `none` is the result `-1`. -/
def bitmapFirstFree (pmm : Pmm) : Option Nat :=
  (List.range (pmm.maxBlocks.toNat / 32)).findSome? fun i =>
    if pmm.bitmap i ≠ 0xFFFFFFFF then
      (List.range 32).findSome? fun j =>
        if pmm.bitmap i &&& 1#32 <<< j = 0 then some (i * 32 + j) else none
    else none

/-- The innermost loop of `bitmap_first_free_s`, with `turns` of it to go. -/
def countFree (pmm : Pmm) (start size : Word) : Nat → Word → Word → Bool
  | 0, _, _ => false
  | turns + 1, k, free =>
    let free := if pmm.bitmapTest (start + k) then free else free + 1
    if free = size then true else pmm.countFree start size turns (k + 1) free

def bitmapFirstFreeS (pmm : Pmm) (size : Word) : Option Nat :=
  if size = 0 then none
  else if size = 1 then pmm.bitmapFirstFree
  else
    (List.range (pmm.maxBlocks.toNat / 32)).findSome? fun i =>
      if pmm.bitmap i ≠ 0xFFFFFFFF then
        (List.range 32).findSome? fun j =>
          if pmm.bitmap i &&& 1#32 <<< j = 0 then
            let start := i * 32 + j
            if pmm.countFree (BitVec.ofNat 32 start) size size.toNat 0 0 then some start else none
          else none
      else none

/-- `memset(bitmap, 0xFF, bytes)` on the words of the bitmap: a word that is
only partly covered keeps its upper bytes. -/
def fillBytes (bitmap : Bitmap 32) (bytes : Nat) : Bitmap 32 := fun word =>
  bitmap word ||| BitVec.ofNat 32 (2 ^ (8 * min 4 (bytes - 4 * word)) - 1)

/-- `memory` is what the storage at `bitmapAddr` held before. -/
def init (memory : Bitmap 32) (memSize bitmapAddr : Word) : Pmm :=
  let maxBlocks := BitVec.ofNat 32 (memSize.toNat / pmmBlockSize)
  let bitmapSize := BitVec.ofNat 32 (maxBlocks.toNat / pmmBlocksPerByte)
  { bitmap := fillBytes memory bitmapSize.toNat
    bitmapAddr, bitmapSize, memorySize := memSize, usedBlocks := maxBlocks, maxBlocks }

/-- `(int)value / PMM_BLOCK_SIZE`, which rounds towards zero. -/
def blocksOf (value : Word) : Int := value.toInt.tdiv pmmBlockSize

def initLoop (pmm : Pmm) (align : Word) : Nat → Pmm
  | 0 => pmm
  | blocks + 1 =>
    let cleared := pmm.bitmapUnset align
    initLoop { cleared with usedBlocks := cleared.usedBlocks - 1 } (align + 1) blocks

/-- A negative block count runs the loop no times, as `toNat` does here. -/
def initRegion (pmm : Pmm) (base size : Word) : Pmm :=
  (pmm.initLoop (BitVec.ofInt 32 (blocksOf base)) (blocksOf size).toNat).bitmapSet 0

def deinitLoop (pmm : Pmm) (align : Word) : Nat → Pmm
  | 0 => pmm
  | blocks + 1 =>
    let marked := pmm.bitmapSet align
    deinitLoop { marked with usedBlocks := marked.usedBlocks + 1 } (align + 1) blocks

def deinitRegion (pmm : Pmm) (base size : Word) : Pmm :=
  pmm.deinitLoop (BitVec.ofInt 32 (blocksOf base)) (blocksOf size).toNat

def getUsedBlockCount (pmm : Pmm) : Word := pmm.usedBlocks
def getFreeBlockCount (pmm : Pmm) : Word := pmm.maxBlocks - pmm.usedBlocks

def allocBlock (pmm : Pmm) : Word × Pmm :=
  if pmm.getFreeBlockCount = 0 then (0, pmm)
  else
    match pmm.bitmapFirstFree with
    | none => (0, pmm)
    | some frame =>
      let marked := pmm.bitmapSet (BitVec.ofNat 32 frame)
      (BitVec.ofNat 32 (frame * pmmBlockSize), { marked with usedBlocks := marked.usedBlocks + 1 })

def freeBlock (pmm : Pmm) (p : Word) : Pmm :=
  let frame := BitVec.ofNat 32 (p.toNat / pmmBlockSize)
  let cleared := pmm.bitmapUnset frame
  { cleared with usedBlocks := cleared.usedBlocks - 1 }

/-- The marking loop of `pmm_alloc_blocks`. -/
def markBlocks (pmm : Pmm) (frame : Word) : Nat → Pmm
  | 0 => pmm
  | count + 1 => (pmm.bitmapSet frame).markBlocks (frame + 1) count

def allocBlocks (pmm : Pmm) (count : Word) : Word × Pmm :=
  if pmm.getFreeBlockCount < count then (0, pmm)
  else
    match pmm.bitmapFirstFreeS count with
    | none => (0, pmm)
    | some frame =>
      let marked := pmm.markBlocks (BitVec.ofNat 32 frame) count.toNat
      (BitVec.ofNat 32 (frame * pmmBlockSize),
        { marked with usedBlocks := marked.usedBlocks + count })

end Pmm

end MexOS.Mm
