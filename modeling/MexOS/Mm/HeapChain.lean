import MexOS.Machine.BlockList
import MexOS.Mm.Heap

/-! The block list in memory and what each function of the heap does to it. -/

namespace MexOS.Mm

open MexOS.Machine

/-- The `next` field of the block before `address`; the last one holds NULL. -/
def link (stop address : Nat) : Nat := if address = stop then 0 else address

structure Header (memory : Memory) (address : Nat) (block : Block) (next : Nat) : Prop where
  size : loadWord memory (BitVec.ofNat 32 address) = BitVec.ofNat 32 block.size
  used : memory (BitVec.ofNat 32 (address + 4)) = if block.used then 1 else 0
  next : loadWord memory (BitVec.ofNat 32 (address + 8)) = BitVec.ofNat 32 next

/-- Headers of `blocks` from one address to another, in a heap that ends at
`stop`. -/
def Span (memory : Memory) (stop : Nat) : Nat → List Block → Nat → Prop
  | first, [], last => first = last
  | first, block :: rest, last =>
    Header memory first block (link stop (first + 12 + block.size)) ∧
      Span memory stop (first + 12 + block.size) rest last

/-- The bytes of a list of blocks with their headers. -/
abbrev extent (blocks : List Block) : Nat := Block.extent 12 blocks

theorem Header.congr {memory other : Memory} {address next : Nat} {block : Block}
    (header : Header memory address block next)
    (same : SameBytes memory other address (address + 12)) : Header other address block next := by
  constructor
  · rw [← header.size]
    exact loadWord_of_same fun place lower upper => same place lower (by omega)
  · rw [← header.used]
    exact same (address + 4) (by omega) (by omega)
  · rw [← header.next]
    exact loadWord_of_same fun place lower upper => same place (by omega) (by omega)

theorem Span.last_eq {memory : Memory} {stop first last : Nat} {blocks : List Block}
    (span : Span memory stop first blocks last) : last = first + extent blocks := by
  induction blocks generalizing first with
  | nil => exact span.symm
  | cons block rest ih =>
    rw [ih span.2, extent, extent, Block.extent_cons]
    omega

theorem Span.congr {memory other : Memory} {stop first last : Nat} {blocks : List Block}
    (span : Span memory stop first blocks last) (same : SameBytes memory other first last) :
    Span other stop first blocks last := by
  induction blocks generalizing first with
  | nil => exact span
  | cons block rest ih =>
    obtain ⟨header, tail⟩ := span
    have reach := tail.last_eq
    refine ⟨header.congr ?_, ih tail ?_⟩
    · intro place lower upper
      exact same place lower (by omega)
    · intro place lower upper
      exact same place (by omega) upper

theorem span_append {memory : Memory} {stop first last : Nat} {front back : List Block} :
    Span memory stop first (front ++ back) last ↔
      Span memory stop first front (first + extent front) ∧ Span memory stop (first + extent front) back last := by
  induction front generalizing first with
  | nil => simp [Span, extent]
  | cons block rest ih =>
    have next : first + extent (block :: rest) = first + 12 + block.size + extent rest := by
      rw [extent, Block.extent_cons, ← Nat.add_assoc, ← Nat.add_assoc]
    rw [List.cons_append, Span, Span, ih, next, and_assoc]

namespace Heap

theorem ofNat_offset (address offset : Nat) :
    BitVec.ofNat 32 address + BitVec.ofNat 32 offset = BitVec.ofNat 32 (address + offset) :=
  (BitVec.ofNat_add address offset).symm

section Fields

variable {heap : Heap} {address next : Nat} {block : Block}

theorem size_eq (header : Header heap.memory address block next) :
    heap.size (BitVec.ofNat 32 address) = BitVec.ofNat 32 block.size := header.size

theorem used_eq (header : Header heap.memory address block next) :
    heap.used (BitVec.ofNat 32 address) = if block.used then 1 else 0 := by
  rw [used, ← header.used, ← ofNat_offset]
  rfl

theorem next_eq (header : Header heap.memory address block next) :
    heap.next (BitVec.ofNat 32 address) = BitVec.ofNat 32 next := by
  rw [Heap.next, ← header.next, ← ofNat_offset]
  rfl

theorem used_eq_zero (header : Header heap.memory address block next) :
    heap.used (BitVec.ofNat 32 address) = 0 ↔ block.used = false := by
  rw [used_eq header]
  cases block.used <;> simp

end Fields

/-- The memory between the two numbers is the same in both heaps. -/
abbrev Same (heap other : Heap) (first last : Nat) : Prop := SameBytes heap.memory other.memory first last

/-- Everything but the memory is the same. -/
structure Frame (heap other : Heap) : Prop where
  heapStart : other.heapStart = heap.heapStart
  heapSize : other.heapSize = heap.heapSize

theorem Frame.trans {first second third : Heap} (left : Frame first second) (right : Frame second third) :
    Frame first third := ⟨right.heapStart.trans left.heapStart, right.heapSize.trans left.heapSize⟩

theorem outside_eq {heap : Heap} {address : Nat} (lower : heap.heapStart.toNat ≤ address)
    (upper : address < heap.heapStart.toNat + heap.heapSize.toNat)
    (bounded : heap.heapStart.toNat + heap.heapSize.toNat < 2 ^ 32) :
    heap.outside (BitVec.ofNat 32 address) = false := by
  have place : (BitVec.ofNat 32 address).toNat = address := by
    rw [BitVec.toNat_ofNat]
    omega
  have stop : heap.heapEnd.toNat = heap.heapStart.toNat + heap.heapSize.toNat := by
    rw [heapEnd, BitVec.toNat_add]
    omega
  simp only [outside, Bool.or_eq_false_iff, decide_eq_false_iff_not]
  rw [BitVec.lt_def, ge_iff_le, BitVec.le_def, place, stop]
  omega

theorem ofNat_ne_zero {address : Nat} (positive : 0 < address) (small : address < 2 ^ 32) :
    BitVec.ofNat 32 address ≠ 0 := by
  intro zero
  have value := congrArg BitVec.toNat zero
  rw [BitVec.toNat_ofNat] at value
  have nothing : (0 : Word).toNat = 0 := rfl
  omega

section Stores

variable {heap : Heap} {address first last : Nat}

theorem setSize_same (value : Word) (bounded : address + 12 ≤ 2 ^ 32) (inside : last ≤ 2 ^ 32)
    (apart : last ≤ address ∨ address + 4 ≤ first) : heap.Same (heap.setSize (BitVec.ofNat 32 address) value) first last := by
  intro place lower upper
  exact storeWord_outside (by omega) (by omega) (by omega)

theorem setUsed_same (value : Byte) (bounded : address + 12 ≤ 2 ^ 32) (inside : last ≤ 2 ^ 32)
    (apart : last ≤ address + 4 ∨ address + 5 ≤ first) :
    heap.Same (heap.setUsed (BitVec.ofNat 32 address) value) first last := by
  have place_eq : BitVec.ofNat 32 address + 4 = BitVec.ofNat 32 (address + 4) := ofNat_offset address 4
  intro place lower upper
  rw [setUsed, place_eq]
  exact storeByte_outside (by omega) (by omega) (by omega)

theorem setNext_same (value : Word) (bounded : address + 12 ≤ 2 ^ 32) (inside : last ≤ 2 ^ 32)
    (apart : last ≤ address + 8 ∨ address + 12 ≤ first) :
    heap.Same (heap.setNext (BitVec.ofNat 32 address) value) first last := by
  have place_eq : BitVec.ofNat 32 address + 8 = BitVec.ofNat 32 (address + 8) := ofNat_offset address 8
  intro place lower upper
  rw [setNext, place_eq]
  exact storeWord_outside (by omega) (by omega) (by omega)

variable {block : Block} {next : Nat}

theorem header_setSize (header : Header heap.memory address block next) (bounded : address + 12 ≤ 2 ^ 32)
    (size : Nat) :
    Header (heap.setSize (BitVec.ofNat 32 address) (BitVec.ofNat 32 size)).memory address ⟨size, block.used⟩ next := by
  have rest : heap.Same (heap.setSize (BitVec.ofNat 32 address) (BitVec.ofNat 32 size)) (address + 4) (address + 12) :=
    setSize_same _ bounded (by omega) (by omega)
  constructor
  · exact loadWord_storeWord_self _ _ _
  · rw [← header.used]
    exact rest (address + 4) (by omega) (by omega)
  · rw [← header.next]
    exact loadWord_of_same fun place lower upper => rest place (by omega) (by omega)

theorem header_setUsed (header : Header heap.memory address block next) (bounded : address + 12 ≤ 2 ^ 32)
    (used : Bool) : Header (heap.setUsed (BitVec.ofNat 32 address) (if used then 1 else 0)).memory address
      ⟨block.size, used⟩ next := by
  constructor
  · rw [← header.size]
    exact loadWord_of_same (setUsed_same _ bounded (by omega) (by omega))
  · have place : BitVec.ofNat 32 (address + 4) = BitVec.ofNat 32 address + 4 := (ofNat_offset address 4).symm
    rw [place]
    exact Function.update_self _ _ _
  · rw [← header.next]
    exact loadWord_of_same (setUsed_same _ bounded (by omega) (by omega))

theorem header_setNext (header : Header heap.memory address block next) (bounded : address + 12 ≤ 2 ^ 32)
    (other : Nat) :
    Header (heap.setNext (BitVec.ofNat 32 address) (BitVec.ofNat 32 other)).memory address block other := by
  constructor
  · rw [← header.size]
    exact loadWord_of_same (setNext_same _ bounded (by omega) (by omega))
  · have kept : heap.Same (heap.setNext (BitVec.ofNat 32 address) (BitVec.ofNat 32 other)) (address + 4) (address + 5) :=
      setNext_same _ bounded (by omega) (by omega)
    rw [← header.used]
    exact kept (address + 4) (by omega) (by omega)
  · have place : BitVec.ofNat 32 (address + 8) = BitVec.ofNat 32 address + 8 := (ofNat_offset address 8).symm
    rw [place]
    exact loadWord_storeWord_self _ _ _

/-- A header that is written field by field, whatever was there before. -/
theorem header_write (heap : Heap) (bounded : address + 12 ≤ 2 ^ 32) (size : Nat) (used : Bool) (next : Nat) :
    Header (((heap.setSize (BitVec.ofNat 32 address) (BitVec.ofNat 32 size)).setUsed (BitVec.ofNat 32 address)
      (if used then 1 else 0)).setNext (BitVec.ofNat 32 address) (BitVec.ofNat 32 next)).memory
      address ⟨size, used⟩ next := by
  have cell (place offset : Nat) : BitVec.ofNat 32 (place + offset) = BitVec.ofNat 32 place + BitVec.ofNat 32 offset :=
    (ofNat_offset place offset).symm
  constructor
  · rw [loadWord_of_same (setNext_same _ bounded (by omega) (by omega)),
      loadWord_of_same (setUsed_same _ bounded (by omega) (by omega))]
    exact loadWord_storeWord_self _ _ _
  · have kept (before : Heap) : before.Same (before.setNext (BitVec.ofNat 32 address) (BitVec.ofNat 32 next))
        (address + 4) (address + 5) := setNext_same _ bounded (by omega) (by omega)
    rw [kept _ (address + 4) (by omega) (by omega), cell]
    exact Function.update_self _ _ _
  · rw [cell]
    exact loadWord_storeWord_self _ _ _

end Stores

end Heap

end MexOS.Mm
