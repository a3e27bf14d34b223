import MexOS.Machine.Memory

/-! The kernel heap of `mm/heap.c`: `kmalloc`, `kfree` and `heap_defragment`
on the memory that holds the block list. -/

namespace MexOS.Mm

open MexOS.Machine

/-- The statics of `heap.c` and the memory behind them. -/
structure Heap where
  memory : Memory
  heapStart : Word
  heapSize : Word
  heapUsed : Word

namespace Heap

/-- More turns than any loop over a list of blocks takes; a loop that uses them
up does not return. -/
def maxTurns : Nat := 2 ^ 32

-- The fields of `struct heap_block`; the byte `used` is followed by three bytes of padding, so that
-- `sizeof(struct heap_block)` is 12.

def size (heap : Heap) (block : Word) : Word := loadWord heap.memory block
def used (heap : Heap) (block : Word) : Byte := heap.memory (block + 4)
def next (heap : Heap) (block : Word) : Word := loadWord heap.memory (block + 8)

def setSize (heap : Heap) (block value : Word) : Heap := { heap with memory := storeWord heap.memory block value }
def setUsed (heap : Heap) (block : Word) (value : Byte) : Heap :=
  { heap with memory := storeByte heap.memory (block + 4) value }
def setNext (heap : Heap) (block value : Word) : Heap :=
  { heap with memory := storeWord heap.memory (block + 8) value }

def heapEnd (heap : Heap) : Word := heap.heapStart + heap.heapSize

def init (memory : Memory) (start size : Word) : Heap :=
  let heap : Heap := ⟨memory, start, size, 12⟩
  ((heap.setSize start (size - 12)).setUsed start 0).setNext start 0

def splitBlock (heap : Heap) (block size : Word) : Heap :=
  if heap.size block ≥ size + 12 + 16 then
    let newBlock := block + 12 + size
    let heap := heap.setSize newBlock (heap.size block - size - 12)
    let heap := heap.setUsed newBlock 0
    let heap := heap.setNext newBlock (heap.next block)
    let heap := heap.setSize block size
    heap.setNext block newBlock
  else heap

/-- Pointers are compared as addresses. -/
def outside (heap : Heap) (block : Word) : Bool := block < heap.heapStart || block ≥ heap.heapEnd

def mergeLoop : Nat → Heap → Word → Option Heap
  | 0, _, _ => none
  | turns + 1, heap, block =>
    if block = 0 ∨ heap.next block = 0 then some heap
    else if heap.outside block then some heap
    else if heap.outside (heap.next block) then some heap
    else if heap.used block = 0 ∧ heap.used (heap.next block) = 0 then
      let newSize := heap.size block + 12 + heap.size (heap.next block)
      if newSize < heap.size block ∨ newSize ≥ heap.heapSize then mergeLoop turns heap (heap.next block)
      else
        let heap := heap.setSize block newSize
        let heap := heap.setNext block (heap.next (heap.next block))
        mergeLoop turns heap block
    else mergeLoop turns heap (heap.next block)

def mergeFreeBlocks (heap : Heap) : Option Heap := mergeLoop maxTurns heap heap.heapStart

/-- `best` is NULL, the address 0, until a block fits. -/
def findLoop (heap : Heap) (size : Word) : Nat → Word → Word → Word → Option Word
  | 0, _, _, _ => none
  | turns + 1, block, best, bestDiff =>
    if block = 0 then some best
    else if heap.used block = 0 ∧ heap.size block ≥ size then
      let diff := heap.size block - size
      if diff < bestDiff then
        if diff = 0 then some block else findLoop heap size turns (heap.next block) block diff
      else findLoop heap size turns (heap.next block) best bestDiff
    else findLoop heap size turns (heap.next block) best bestDiff

def findBestFit (heap : Heap) (size : Word) : Option Word :=
  findLoop heap size maxTurns heap.heapStart 0 0xFFFFFFFF

/-- Both places where `kmalloc` hands out the block it found. -/
def take (heap : Heap) (block size : Word) : Word × Heap :=
  let heap := heap.splitBlock block size
  let heap := heap.setUsed block 1
  (block + 12, { heap with heapUsed := heap.heapUsed + (size + 12) })

/-- `kmalloc` from the search on, for a size that is rounded already. The
result 0 is NULL; `none` means that a loop does not end. -/
def kmallocRounded (heap : Heap) (size : Word) : Option (Word × Heap) := do
  let block ← heap.findBestFit size
  if block ≠ 0 then return heap.take block size
  let heap ← heap.mergeFreeBlocks
  let block ← heap.findBestFit size
  if block ≠ 0 then return heap.take block size
  return (0, heap)

def kmalloc (heap : Heap) (size : Word) : Option (Word × Heap) :=
  if size = 0 then some (0, heap) else heap.kmallocRounded ((size + 3) &&& ~~~3)

def validateLoop (heap : Heap) : Nat → Word → Option Heap
  | 0, _ => none
  | turns + 1, block =>
    if block = 0 then some heap
    else if heap.outside block then some heap
    else if heap.used block = 0 ∧ heap.size block = 0 ∧ heap.next block ≠ 0 then heap.mergeFreeBlocks
    else heap.validateLoop turns (heap.next block)

def heapValidate (heap : Heap) : Option Heap := heap.validateLoop maxTurns heap.heapStart

def alignedMagic : Word := 0xA11C4FED

/-- `size + align + sizeof(void*) + sizeof(uint32_t)` -/
def alignedTotal (size align : Word) : Word := size + align + 4 + 4

/-- Where the aligned pointer lies in the memory that `kmalloc` returned. -/
def alignedPlace (addr align : Word) : Word := (addr + 4 + 4 + align - 1) &&& ~~~(align - 1)

def kmallocAligned (heap : Heap) (size align : Word) : Option (Word × Heap) :=
  if align = 0 ∨ align &&& (align - 1) ≠ 0 then some (0, heap)
  else do
    let (ptr, heap) ← heap.kmalloc (alignedTotal size align)
    if ptr = 0 then return (0, heap)
    let aligned := alignedPlace ptr align
    let marked := storeWord heap.memory (aligned - 4 - 4) alignedMagic
    return (aligned, { heap with memory := storeWord marked (aligned - 4) ptr })

/-- The block that `kfree` works on: the probe for the mark of
`kmalloc_aligned` may send it to another one, or (`none`) end the call. -/
def kfreeBlock (heap : Heap) (ptr : Word) : Option Word :=
  if ptr = 0 then none
  else if ptr < heap.heapStart ∨ ptr ≥ heap.heapEnd then none
  else if loadWord heap.memory (ptr - 4 - 4) = alignedMagic then
    let origPtr := loadWord heap.memory (ptr - 4)
    if origPtr < heap.heapStart ∨ origPtr ≥ heap.heapEnd then none else some (origPtr - 12)
  else some (ptr - 12)

def kfree (heap : Heap) (ptr : Word) : Option Heap :=
  match heap.kfreeBlock ptr with
  | none => some heap
  | some block =>
    if heap.used block ≠ 0 then do
      let heap := { heap with heapUsed := heap.heapUsed - (heap.size block + 12) }
      let heap := heap.setUsed block 0
      let heap ← heap.mergeFreeBlocks
      heap.heapValidate
    else some heap

def defragment (heap : Heap) : Option Heap := heap.mergeFreeBlocks

def heapGetUsed (heap : Heap) : Word := heap.heapUsed

def heapGetFree (heap : Heap) : Word := heap.heapSize - heap.heapUsed

def maxIterations : Nat := 10000

/-- The loop of `heap_get_fragmentation` with the number and the largest size of
the free blocks so far; `none` means that it takes more turns than these. -/
def fragmentationLoop : Nat → Heap → Word → Nat → Word → Word → Option (Word × Word × Heap)
  | 0, _, _, _, _, _ => none
  | turns + 1, heap, block, iterations, count, largest =>
    if block = 0 ∨ iterations ≥ maxIterations then some (count, largest, heap)
    else if heap.outside block then some (count, largest, heap)
    else if heap.size block = 0 ∧ heap.next block ≠ 0 then do
      let heap ← heap.mergeFreeBlocks
      fragmentationLoop turns heap heap.heapStart iterations 0 0
    else if heap.used block = 0 then
      let largest := if heap.size block > largest then heap.size block else largest
      fragmentationLoop turns heap (heap.next block) (iterations + 1) (count + 1) largest
    else fragmentationLoop turns heap (heap.next block) (iterations + 1) count largest

/-- The number of free blocks, the largest one and the heap, when the loop ends
within so many turns. -/
def heapGetFragmentation (heap : Heap) (turns : Nat) : Option (Word × Word × Heap) :=
  fragmentationLoop turns heap heap.heapStart 0 0 0

end Heap

end MexOS.Mm
