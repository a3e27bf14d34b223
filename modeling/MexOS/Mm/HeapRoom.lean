import MexOS.Mm.HeapAccounting
import MexOS.Mm.HeapAligned

/-! An allocation has the bytes that were asked for. -/

namespace MexOS.Mm

open MexOS.Machine

/-- The block behind `p` holds `size` bytes. -/
def Heap.OwnsRoom (heap : Heap) (p size : Word) : Prop :=
  ∃ front bytes back, heap.Holds (front ++ ⟨bytes, true⟩ :: back) ∧
    p = payloadOf (heap.heapStart.toNat + extent front) ∧ size.toNat ≤ bytes

def Heap.KmallocGivesRoom (heap : Heap) (size : Word) : Prop :=
  ∀ p other, heap.kmalloc size = some (p, other) → p ≠ 0 → other.OwnsRoom p size

/-- `p` is a multiple of `align`, and the mark in front of it and `size` bytes
behind it lie in the payload of one block in use. -/
def Heap.OwnsAligned (heap : Heap) (p size align : Word) : Prop :=
  align.toNat ∣ p.toNat ∧ ∃ front bytes back, heap.Holds (front ++ ⟨bytes, true⟩ :: back) ∧
    heap.heapStart.toNat + extent front + 12 + 8 ≤ p.toNat ∧
    p.toNat + size.toNat ≤ heap.heapStart.toNat + extent front + 12 + bytes

def Heap.KmallocAlignedGivesRoom (heap : Heap) (size align : Word) : Prop :=
  ∀ p other, heap.kmallocAligned size align = some (p, other) → p ≠ 0 → other.OwnsAligned p size align

/-- The sum that `kmalloc_aligned` asks `kmalloc` for, rounded up, is a word. -/
def Summable (_ : Heap) (size align : Word) : Prop := size.toNat + align.toNat + 8 ≤ 0xFFFFFFFC

namespace LoanSound

open Heap

variable {range : HeapRange} {state : HeapLoans} {blocks : List Block} {size align : Word}

/-- The last three sizes are rounded to 0, and every free block has that much room. -/
theorem kmallocGivesRoom_iff (fits : range.size.toNat ≤ 2 ^ 32 - 20) (lent : LoanSound range state blocks) :
    state.heap.KmallocGivesRoom size ↔ size.toNat ≤ 0xFFFFFFFC ∨ ∀ block ∈ blocks, block.used = true := by
  constructor
  · intro room
    by_cases small : size.toNat ≤ 0xFFFFFFFC
    · exact .inl small
    right
    have least : rounded size = 0 := by
      have sum : (size + 3).toNat < 4 := by bv_omega
      rw [rounded]
      omega
    intro block member
    obtain ⟨p, other, call, _⟩ := kmalloc_spec lent.sound.holds lent.sound.separated size (lent.sound.small fits _)
    change state.heap.kmalloc size = some (p, other) at call
    rcases lent.sound.kmalloc_cases fits call with ⟨_, _, none⟩ | ⟨_, place, bytes, new, pointer, _, most, sound, more, _⟩
    · have unfit := none (by bv_omega) block member
      rw [least] at unfit
      by_contra free
      exact unfit ⟨by simpa using free, Nat.zero_le _⟩
    · have used : (place, bytes) ∈ Block.usedBlocks 12 range.start.toNat new := more.mem_iff.mpr List.mem_cons_self
      have value := (sound.usedBlock used).2.2.2
      have payload := sound.payload_of_used used
      obtain ⟨front, amount, back, holds, here, enough⟩ := room p other call (by bv_omega)
      have same : p - 12 = BitVec.ofNat 32 (other.heapStart.toNat + extent front) := by
        rw [here, payloadOf]
        bv_omega
      rw [← pointer, HeapClients.payload, same, holds.from_here.size_toNat] at payload
      simp only at payload
      omega
  · rintro (small | full) p other call nonnull
    · rcases lent.sound.kmalloc_cases fits call with ⟨null, _, _⟩ | ⟨_, place, bytes, new, pointer, least, _, sound, more, _⟩
      · exact absurd null nonnull
      · obtain ⟨front, back, found, here⟩ := Block.mem_usedBlocks (more.mem_iff.mpr List.mem_cons_self)
        have located : other.heapStart = range.start := sound.start
        have sum : (size + 3).toNat = size.toNat + 3 := by bv_omega
        rw [rounded, sum] at least
        refine ⟨front, bytes, back, found ▸ sound.holds, ?_, by omega⟩
        rw [located, pointer, here]
    · rcases lent.sound.kmalloc_cases fits call with ⟨null, _, _⟩ | ⟨⟨block, member, free, _⟩, _⟩
      · exact absurd null nonnull
      · rw [full block member] at free
        cases free

/-- The aligned pointer, the mark and the room lie in the block that was taken. -/
theorem kmallocAlignedGivesRoom (fits : range.size.toNat ≤ 2 ^ 32 - 20) (lent : LoanSound range state blocks)
    (small : size.toNat + align.toNat + 8 ≤ 0xFFFFFFFC) : state.heap.KmallocAlignedGivesRoom size align := by
  intro p other result nonnull
  obtain ⟨ptr, inner, call, _⟩ := kmalloc_spec lent.sound.holds lent.sound.separated (alignedTotal size align)
    (lent.sound.small fits _)
  obtain ⟨place, bytes, new, after, _, divides, above, below, more⟩ := lent.kmallocAligned fits small nonnull call result
  obtain ⟨front, back, found, here⟩ := Block.mem_usedBlocks (more.mem_iff.mpr List.mem_cons_self)
  have located : other.heapStart = range.start := after.sound.start
  refine ⟨divides, front, bytes, back, found ▸ after.sound.holds, ?_, ?_⟩
  · rw [located, ← here]
    omega
  · rw [located, ← here]
    exact below

end LoanSound

/-- In every run in which `kmalloc_aligned` gets arguments whose sum is a word,
an allocation has the bytes that were asked for: with `kmalloc` exactly if the
size is rounded to a word or no block is free. -/
theorem allocation_has_room {range : HeapRange} (fits : range.size.toNat ≤ 2 ^ 32 - 20) {memory : Memory} {state : HeapLoans}
    (run : Reachable (HeapLoans.Step Summable) (HeapLoans.start range memory) state) :
    (∀ size, state.heap.KmallocGivesRoom size ↔ size.toNat ≤ 0xFFFFFFFC ∨
      ∀ blocks, state.heap.Holds blocks → ∀ block ∈ blocks, block.used = true) ∧
    ∀ size align, PowerOfTwo align → Summable state.heap size align → state.heap.KmallocAlignedGivesRoom size align := by
  obtain ⟨blocks, lent⟩ := LoanSound.run fits (fun _ _ _ _ summable => summable) run
  refine ⟨fun size => ?_, fun size align _ summable => lent.kmallocAlignedGivesRoom fits summable⟩
  rw [lent.kmallocGivesRoom_iff fits]
  apply or_congr_right
  constructor
  · intro full others holds
    rw [holds.unique lent.sound.holds]
    exact full
  · intro full
    exact full blocks lent.sound.holds

theorem allocation_has_room_first :
    (HeapLoans.start kernelHeap fun _ => 0).heap.KmallocGivesRoom 100 ∧
      (HeapLoans.start kernelHeap fun _ => 0).heap.KmallocAlignedGivesRoom 100 16 := by
  have summable : Summable (HeapLoans.start kernelHeap fun _ => 0).heap 100 16 := by
    rw [Summable]
    decide
  have room := @allocation_has_room kernelHeap (by decide) (fun _ => 0) _ .refl
  exact ⟨(room.1 100).mpr (.inl (by decide)), room.2 100 16 (by decide) summable⟩

/-- 0xFFFFFFFD bytes are rounded to none, and 0xFFFFFFF0 bytes aligned to 16 are
a request for 8; the heap of the kernel serves both. -/
theorem room_wraps :
    (∃ p other, (HeapLoans.start kernelHeap fun _ => 0).heap.kmalloc 0xFFFFFFFD = some (p, other) ∧ p ≠ 0 ∧
      ¬ other.OwnsRoom p 0xFFFFFFFD) ∧
    ∃ p other, (HeapLoans.start kernelHeap fun _ => 0).heap.kmallocAligned 0xFFFFFFF0 16 = some (p, other) ∧ p ≠ 0 ∧
      ¬ other.OwnsAligned p 0xFFFFFFF0 16 := by
  have lent := LoanSound.initial kernelHeap fun _ => 0
  constructor
  · have short : ¬ (HeapLoans.start kernelHeap fun _ => 0).heap.KmallocGivesRoom 0xFFFFFFFD := by
      rw [lent.kmallocGivesRoom_iff (by decide)]
      simp
    simp only [Heap.KmallocGivesRoom, not_forall] at short
    obtain ⟨p, other, call, nonnull, small⟩ := short
    exact ⟨p, other, call, nonnull, small⟩
  · obtain ⟨ptr, inner, call, nonnull, sound, _⟩ := @first_kmalloc (fun _ => 0) (Heap.alignedTotal 0xFFFFFFF0 16)
      (by decide) (by decide)
    have power : PowerOfTwo 16 := by decide
    have result := Heap.kmallocAligned_eq power call
    rw [if_neg nonnull] at result
    obtain ⟨front, size, back, found, _, value, _⟩ := sound.locate List.mem_cons_self
    have whole := sound.holds.extent_eq
    have total : inner.heapSize.toNat = 0x400000 := congrArg BitVec.toNat sound.size
    rw [found, extent, Block.extent_append, Block.extent_cons] at whole
    change _ = inner.heapSize.toNat at whole
    have start : kernelHeap.start.toNat = 0x200000 := rfl
    have sixteen : (16 : Word).toNat = 16 := rfl
    simp only [extent] at value
    obtain ⟨above, _⟩ := @alignedPlace_bounds ptr 16 power (by omega)
    refine ⟨_, _, result, by bv_omega, ?_⟩
    rintro ⟨_, front', bytes, back', holds, lower, upper⟩
    -- The block would be larger than the heap.
    have reach := holds.extent_eq
    have amount : (0xFFFFFFF0 : Word).toNat = 0xFFFFFFF0 := rfl
    have located : (inner.mark (Heap.alignedPlace ptr 16) ptr).heapStart.toNat = 0x200000 := congrArg BitVec.toNat sound.start
    have same : (inner.mark (Heap.alignedPlace ptr 16) ptr).heapSize.toNat = 0x400000 := total
    rw [extent, Block.extent_append, Block.extent_cons, same] at reach
    rw [located, amount] at upper
    simp only [extent] at upper reach
    omega

end MexOS.Mm
