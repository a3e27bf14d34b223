import MexOS.Mm.HeapAccounting

/-! The loop of `heap_get_fragmentation`: where it comes to an end. -/

namespace MexOS.Mm

open MexOS.Machine

namespace Heap

section Turns

variable {heap : Heap} {address iterations : Nat} {block : Block} {rest blocks : List Block}

/-- A turn that goes on to the next block is counted. -/
theorem fragmentationLoop_advance (walk : Walk heap address (block :: rest)) (few : iterations < maxIterations)
    (stays : block.size = 0 → rest = []) (count largest : Word) :
    ∃ count' largest', ∀ turns, fragmentationLoop (turns + 1) heap (BitVec.ofNat 32 address) iterations count largest =
      fragmentationLoop turns heap (BitVec.ofNat 32 (if rest = [] then 0 else address + 12 + block.size)) (iterations + 1)
        count' largest' := by
  have going : ¬ (BitVec.ofNat 32 address = 0 ∨ iterations ≥ maxIterations) := by
    rintro (null | many)
    · exact walk.ne_zero null
    · omega
  have whole : ¬ (heap.size (BitVec.ofNat 32 address) = 0 ∧ heap.next (BitVec.ofNat 32 address) ≠ 0) := by
    rintro ⟨empty, more⟩
    have amount := walk.size_toNat
    rw [empty] at amount
    rw [walk.next_or_null, if_pos (stays amount.symm)] at more
    exact more rfl
  by_cases unused : heap.used (BitVec.ofNat 32 address) = 0
  · refine ⟨count + 1, if heap.size (BitVec.ofNat 32 address) > largest then heap.size (BitVec.ofNat 32 address) else largest,
      fun turns => ?_⟩
    rw [fragmentationLoop, if_neg going, walk.inside, if_neg (by simp), if_neg whole, if_pos unused, walk.next_or_null]
  · refine ⟨count, largest, fun turns => ?_⟩
    rw [fragmentationLoop, if_neg going, walk.inside, if_neg (by simp), if_neg whole, if_neg unused, walk.next_or_null]

/-- An empty block that another one follows starts the loop again; the merge
finds nothing to join, and no iteration is counted. -/
theorem fragmentationLoop_restart (holds : Holds heap blocks) (separated : Block.Separated blocks)
    (walk : Walk heap address (block :: rest)) (few : iterations < maxIterations) (empty : block.size = 0) (more : rest ≠ [])
    (turns : Nat) (count largest : Word) :
    fragmentationLoop (turns + 1) heap (BitVec.ofNat 32 address) iterations count largest =
      fragmentationLoop turns heap heap.heapStart iterations 0 0 := by
  have going : ¬ (BitVec.ofNat 32 address = 0 ∨ iterations ≥ maxIterations) := by
    rintro (null | many)
    · exact walk.ne_zero null
    · omega
  have again : heap.size (BitVec.ofNat 32 address) = 0 ∧ heap.next (BitVec.ofNat 32 address) ≠ 0 := by
    constructor
    · rw [size_eq walk.header, empty]
      rfl
    · obtain ⟨follower, others, rfl⟩ := List.exists_cons_of_ne_nil more
      rw [walk.next_cons]
      exact walk.tail.ne_zero
  rw [fragmentationLoop, if_neg going, walk.inside, if_neg (by simp), if_pos again, mergeFreeBlocks_separated holds separated]
  rfl

end Turns

section Whole

variable {heap : Heap} {blocks : List Block}

/-- The first block is counted, so that every second turn is. -/
def LeavesFirst (blocks : List Block) : Prop := ∀ first rest, blocks = first :: rest → first.size = 0 → rest = []

theorem fragmentationLoop_ends (holds : Holds heap blocks) (separated : Block.Separated blocks) (leaves : LeavesFirst blocks)
    (left : Nat) {iterations address : Nat} {suffix : List Block} (enough : maxIterations ≤ iterations + left)
    (walk : Walk heap address suffix) (count largest : Word) :
    ∃ turns count' largest', fragmentationLoop turns heap (BitVec.ofNat 32 (if suffix = [] then 0 else address)) iterations
      count largest = some (count', largest', heap) := by
  induction left generalizing iterations address suffix count largest with
  | zero =>
    refine ⟨1, count, largest, ?_⟩
    rw [fragmentationLoop, if_pos (.inr (by omega))]
  | succ left ih =>
    by_cases few : iterations < maxIterations
    swap
    · refine ⟨1, count, largest, ?_⟩
      rw [fragmentationLoop, if_pos (.inr (by omega))]
    cases suffix with
    | nil =>
      refine ⟨1, count, largest, ?_⟩
      rw [fragmentationLoop, if_pos (.inl rfl)]
    | cons block rest =>
      rw [if_neg (by simp)]
      -- The turn at a block that is not empty, or the last one.
      have advance {place : Nat} {here : Block} {behind : List Block} (walk : Walk heap place (here :: behind))
          (stays : here.size = 0 → behind = []) (count largest : Word) : ∃ turns count' largest',
            fragmentationLoop turns heap (BitVec.ofNat 32 place) iterations count largest = some (count', largest', heap) := by
        obtain ⟨nextCount, nextLargest, turn⟩ := fragmentationLoop_advance walk few stays count largest
        obtain ⟨turns, count', largest', result⟩ := @ih (iterations + 1) _ _ (by omega) walk.tail nextCount nextLargest
        exact ⟨turns + 1, count', largest', (turn turns).trans result⟩
      by_cases stays : block.size = 0 → rest = []
      · exact advance walk stays count largest
      · obtain ⟨empty, more⟩ := Classical.not_imp.mp stays
        obtain ⟨first, others, rfl⟩ := List.exists_cons_of_ne_nil holds.nonempty
        have start : BitVec.ofNat 32 heap.heapStart.toNat = heap.heapStart := by simp
        obtain ⟨turns, count', largest', result⟩ := advance holds.walk (leaves first others rfl) 0 0
        rw [start] at result
        exact ⟨turns + 1, count', largest', (fragmentationLoop_restart holds separated walk few empty more turns _ _).trans result⟩

/-- At an empty first block the loop stays for ever. -/
theorem fragmentationLoop_stuck {first : Block} {rest : List Block} (holds : Holds heap (first :: rest))
    (separated : Block.Separated (first :: rest)) (empty : first.size = 0) (more : rest ≠ []) (turns : Nat) (count largest : Word) :
    fragmentationLoop turns heap heap.heapStart 0 count largest = none := by
  have start : BitVec.ofNat 32 heap.heapStart.toNat = heap.heapStart := by simp
  induction turns generalizing count largest with
  | zero => rfl
  | succ turns ih =>
    have turn := fragmentationLoop_restart holds separated holds.walk (by decide : 0 < maxIterations) empty more turns count largest
    rw [start] at turn
    exact turn.trans (ih 0 0)

theorem leavesFirst_iff (holds : Holds heap blocks) :
    LeavesFirst blocks ↔ heap.size heap.heapStart ≠ 0 ∨ heap.next heap.heapStart = 0 := by
  have start : BitVec.ofNat 32 heap.heapStart.toNat = heap.heapStart := by simp
  obtain ⟨first, rest, rfl⟩ := List.exists_cons_of_ne_nil holds.nonempty
  have amount := holds.walk.size_toNat
  have follower := holds.walk.next_or_null
  have tail := holds.walk.tail
  rw [start] at amount follower
  have empty : heap.size heap.heapStart = 0 ↔ first.size = 0 := by
    rw [← amount]
    exact BitVec.toNat_inj.symm
  have alone : heap.next heap.heapStart = 0 ↔ rest = [] := by
    rw [follower]
    cases rest with
    | nil => simp
    | cons second others => simpa using tail.ne_zero
  rw [ne_eq, empty, alone]
  constructor
  · intro leaves
    by_cases zero : first.size = 0
    · exact .inr (leaves first rest rfl zero)
    · exact .inl zero
  · rintro ends head tail same zero
    obtain ⟨rfl, rfl⟩ := List.cons.inj same
    exact ends.resolve_left fun positive => positive zero

theorem heapGetFragmentation_ends_iff (holds : Holds heap blocks) (separated : Block.Separated blocks) :
    (∃ turns count largest, heap.heapGetFragmentation turns = some (count, largest, heap)) ↔ LeavesFirst blocks := by
  constructor
  · rintro ⟨turns, count, largest, result⟩ first rest rfl empty
    by_contra more
    rw [heapGetFragmentation, fragmentationLoop_stuck holds separated empty more] at result
    cases result
  · intro leaves
    have start : BitVec.ofNat 32 heap.heapStart.toNat = heap.heapStart := by simp
    have ends := fragmentationLoop_ends holds separated leaves maxIterations (by omega : maxIterations ≤ 0 + maxIterations) holds.walk 0 0
    rw [if_neg holds.nonempty, start] at ends
    exact ends

end Whole

end Heap

/-- In every state of every run the report ends, and leaves the heap as it is,
exactly when the first block is not empty or is the only one. -/
theorem fragmentation_ends_iff {range : HeapRange} (fits : range.size.toNat ≤ 2 ^ 32 - 20) {memory : Memory} {clients : HeapClients}
    (run : Reachable HeapClients.Step (HeapClients.start range memory) clients) :
    (∃ turns count largest, clients.heap.heapGetFragmentation turns = some (count, largest, clients.heap)) ↔
      clients.heap.size clients.heap.heapStart ≠ 0 ∨ clients.heap.next clients.heap.heapStart = 0 := by
  obtain ⟨blocks, sound⟩ := HeapSound.run fits run
  rw [Heap.heapGetFragmentation_ends_iff sound.holds sound.separated]
  exact Heap.leavesFirst_iff sound.holds

theorem fragmentation_ends_first : ∃ turns count largest, (HeapClients.start kernelHeap fun _ => 0).heap.heapGetFragmentation turns =
    some (count, largest, (HeapClients.start kernelHeap fun _ => 0).heap) :=
  (@fragmentation_ends_iff kernelHeap (by decide) (fun _ => 0) _ .refl).mpr (.inl (by decide +kernel))

/-- `kmalloc(0xFFFFFFFF)` takes no bytes of the kernel's heap: the first block
is empty, and the report does not end. -/
theorem fragmentation_never_ends : ∃ p other, (HeapClients.start kernelHeap fun _ => 0).heap.kmalloc 0xFFFFFFFF = some (p, other) ∧
    Reachable HeapClients.Step (HeapClients.start kernelHeap fun _ => 0) ⟨other, [p]⟩ ∧
    ∀ turns, other.heapGetFragmentation turns = none := by
  obtain ⟨p, other, result, nonnull, sound, _⟩ := @first_kmalloc (fun _ => 0) 0xFFFFFFFF (by decide) (by decide)
  refine ⟨p, other, result, ?_, fun turns => ?_⟩
  · have step := HeapClients.Step.kmalloc 0xFFFFFFFF result
    rw [if_neg nonnull] at step
    exact .single step
  · have split : Heap.carve (Heap.rounded 0xFFFFFFFF) 0x3FFFF4 = [⟨0, true⟩, ⟨0x3FFFE8, false⟩] := by decide
    rw [split] at sound
    exact Heap.fragmentationLoop_stuck sound.holds sound.separated rfl (by simp) turns 0 0

end MexOS.Mm
