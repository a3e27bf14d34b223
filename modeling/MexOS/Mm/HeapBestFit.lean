import MexOS.Mm.HeapInvariant

/-! Which block `kmalloc` takes, over whole runs. -/

namespace MexOS.Mm

open MexOS.Machine

/-- The size rounded up to a multiple of 4. -/
def roundedUp (size : Word) : Nat := (size.toNat + 3) / 4 * 4

/-- A call of `kmalloc` that takes the first of the smallest free blocks that
are large enough and touches nothing else, or changes nothing at all. -/
structure BestFitCall (heap : Heap) (size : Word) (blocks : List Block) (p : Word) (other : Heap) : Prop where
  holds : heap.Holds blocks
  call : heap.kmalloc size = some (p, other)
  refused : p = 0 ↔ ∀ block ∈ blocks, ¬ block.Fits (roundedUp size)
  unchanged : p = 0 → other = heap
  taken : p ≠ 0 → ∃ front old back, Block.BestFit blocks (roundedUp size) front old back ∧
    p = payloadOf (heap.heapStart.toNat + extent front) ∧
    other.Holds (front ++ (Heap.carve (roundedUp size) old ++ back)) ∧
    ∀ place < 2 ^ 32, place < heap.heapStart.toNat + extent front ∨ heap.heapStart.toNat + extent front + 12 + old ≤ place →
      other.memory (BitVec.ofNat 32 place) = heap.memory (BitVec.ofNat 32 place)

namespace HeapSound

open Heap

variable {range : HeapRange} {clients : HeapClients} {blocks : List Block} {size : Word}

theorem rounded_eq (small : size.toNat ≤ 0xFFFFFFFC) : rounded size = roundedUp size := by
  have sum : (size + 3).toNat = size.toNat + 3 := by bv_omega
  rw [rounded, roundedUp, sum]

/-- The whole of a block that is handed out is behind the first header. -/
theorem payload_ne_zero {front back : List Block} {block : Block} (sound : HeapSound range clients (front ++ block :: back)) :
    payloadOf (range.start.toNat + extent front) ≠ 0 := by
  have value := sound.payload_toNat
  intro null
  have zero : (0 : Word).toNat = 0 := rfl
  rw [null, zero] at value
  omega

theorem kmalloc_best_fit (fits : range.size.toNat ≤ 2 ^ 32 - 20) (sound : HeapSound range clients blocks)
    (positive : size ≠ 0) (small : size.toNat ≤ 0xFFFFFFFC) : ∃ p other, BestFitCall clients.heap size blocks p other := by
  have amount : ((size + 3) &&& ~~~3).toNat = roundedUp size := (round_toNat size).trans (rounded_eq small)
  have call : clients.heap.kmalloc size = clients.heap.kmallocRounded ((size + 3) &&& ~~~3) := if_neg positive
  rcases kmallocRounded_eq sound.holds sound.separated ((size + 3) &&& ~~~3) with ⟨none, result⟩ | ⟨front, old, back, best, result⟩
  · rw [amount] at none
    refine ⟨0, clients.heap, sound.holds, call.trans result, ⟨fun _ => none, fun _ => rfl⟩, fun _ => rfl, ?_⟩
    exact fun nonnull => absurd rfl nonnull
  · have found := best.found
    have whole := sound.holds.extent_eq
    have splittable := sound.small fits ((size + 3) &&& ~~~3).toNat
    obtain ⟨_, allocated⟩ := take_allocates sound.holds splittable found best.enough
    subst found
    rw [extent, Block.extent_append, Block.extent_cons] at whole
    dsimp only at whole
    have enough := best.enough
    have pointer := allocated.pointer
    have nonnull := sound.payload_ne_zero
    rw [← sound.start] at nonnull
    rw [amount] at best
    refine ⟨_, _, sound.holds, call.trans result, ⟨fun null => absurd (pointer.symm.trans null) nonnull, ?_⟩,
      fun null => absurd (pointer.symm.trans null) nonnull, fun _ => ⟨front, old, back, best, pointer, ?_, ?_⟩⟩
    · intro none
      exact absurd ⟨rfl, best.enough⟩ (none ⟨old, false⟩ (by simp))
    · rw [← amount]
      exact allocated.holds
    · intro place inside apart
      exact take_keeps sound.holds (splittable (by omega)) inside apart

end HeapSound

/-- Every call in every run takes the best fit exactly when the heap has at
most 2^32 - 20 bytes: in a larger one `split_block` splits a block that has no
room for another header. -/
theorem kmalloc_best_fit_iff (range : HeapRange) :
    (∀ memory clients, Reachable HeapClients.Step (HeapClients.start range memory) clients →
      ∀ size : Word, 0 < size.toNat → size.toNat ≤ 0xFFFFFFFC → ∃ blocks p other, BestFitCall clients.heap size blocks p other) ↔
    range.size.toNat ≤ 2 ^ 32 - 20 := by
  constructor
  · intro served
    apply Nat.le_of_not_lt
    intro large
    have inside := range.inside
    have least := range.least
    obtain ⟨taken, result, frame, first, second, _⟩ := kmalloc_whole (fun _ => 0) large
    obtain ⟨blocks, p, other, call⟩ := served (fun _ => 0) _ .refl (range.size - 12) (by bv_omega) (by bv_omega)
    obtain ⟨rfl, rfl⟩ := Prod.mk.inj (Option.some.inj (result.symm.trans call.call))
    obtain ⟨front, old, back, _, _, holds, _⟩ := call.taken (by bv_omega)
    exact not_holds_overflow frame.heapStart frame.heapSize first second holds
  · intro fits memory clients reach size positive small
    obtain ⟨blocks, sound⟩ := HeapSound.run fits reach
    have nonzero : size ≠ 0 := by bv_omega
    exact ⟨blocks, sound.kmalloc_best_fit fits nonzero small⟩

/-- The first call on a heap over nearly all of the address space takes the
one block, and what it leaves is no list of blocks. -/
theorem kmalloc_splits_beyond_heap :
    ∃ other, (HeapClients.start wideRange fun _ => 0).heap.kmalloc 0xFFFFFFE4 = some (16, other) ∧
      ∀ blocks, ¬ BestFitCall (HeapClients.start wideRange fun _ => 0).heap 0xFFFFFFE4 blocks 16 other := by
  obtain ⟨other, result, frame, first, second, _⟩ := @kmalloc_whole wideRange (fun _ => 0) (by decide)
  refine ⟨other, result, fun blocks call => ?_⟩
  obtain ⟨front, old, back, _, _, holds, _⟩ := call.taken (by decide)
  exact not_holds_overflow frame.heapStart frame.heapSize first second holds

end MexOS.Mm
