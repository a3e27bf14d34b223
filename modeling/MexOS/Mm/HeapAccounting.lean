import MexOS.Mm.HeapUse

/-! The counter behind `heap_get_used` and `heap_get_free`. -/

namespace MexOS.Mm

open MexOS.Machine Heap

/-- The bytes that `kmalloc` counts are those it takes: the best fit is split or
as large as asked for, and another block stays free. -/
def Heap.Exact (heap : Heap) (size : Word) : Prop :=
  size ≠ 0 → ∀ blocks, heap.Holds blocks → ∀ front old back, Block.BestFit blocks (rounded size) front old back →
    rounded size + 28 ≤ old ∨ old = rounded size ∧ ∃ block ∈ front ++ back, block.used = false

/-- A step whose allocation, if it is one, is counted as it is. -/
inductive ExactStep (clients : HeapClients) : HeapClients → Prop
  | kmalloc (size : Word) : clients.heap.Exact size → clients.heap.kmalloc size = some (p, other) →
    ExactStep clients ⟨other, if p = 0 then clients.live else p :: clients.live⟩
  | kfree : p ∈ clients.live → clients.heap.kfree p = some other → ExactStep clients ⟨other, clients.live.erase p⟩
  | kfreeNull : clients.heap.kfree 0 = some other → ExactStep clients ⟨other, clients.live⟩
  | defragment : clients.heap.defragment = some other → ExactStep clients ⟨other, clients.live⟩
  | store (offset : Nat) (value : Byte) : p ∈ clients.live → offset < clients.payload p →
    ExactStep clients ⟨clients.stored p offset value, clients.live⟩

/-- The counter is right, and some block is free. -/
structure Accounted (range : HeapRange) (clients : HeapClients) (blocks : List Block) : Prop where
  sound : HeapSound range clients blocks
  counted : clients.heap.heapUsed.toNat = 12 + Block.inUse 12 blocks
  free : ∃ block ∈ blocks, block.used = false

namespace Accounted

variable {range : HeapRange} {clients : HeapClients} {blocks : List Block}

theorem initial (range : HeapRange) (memory : Memory) :
    Accounted range (HeapClients.start range memory) [⟨range.size.toNat - 12, false⟩] :=
  ⟨HeapSound.initial range memory, rfl, _, List.mem_singleton_self _, rfl⟩

/-- The free block leaves room for the header that is counted from the start. -/
theorem room (sound : HeapSound range clients blocks) (free : ∃ block ∈ blocks, block.used = false) :
    12 + Block.inUse 12 blocks ≤ clients.heap.heapSize.toNat := by
  obtain ⟨block, member, unused⟩ := free
  have bound : Block.inUse 12 blocks + 12 ≤ extent blocks := Block.inUse_of_free member unused
  rw [sound.holds.extent_eq] at bound
  omega

/-- No sum in `split_block` wraps for a block that is counted as it is. -/
theorem splittable (accounted : Accounted range clients blocks) {size : Word} (positive : size ≠ 0)
    (exact_ : clients.heap.Exact size) {block : Block} (member : block ∈ blocks) (fits : block.Fits (rounded size)) :
    clients.heap.Splittable (rounded size) := by
  have holds := accounted.sound.holds
  have whole := holds.extent_eq
  obtain ⟨_, _, spec⟩ := findBestFit_spec holds ((size + 3) &&& ~~~3)
  rw [round_toNat] at spec
  rcases spec with ⟨_, none⟩ | ⟨front, old, back, best, _⟩
  · exact absurd fits (none block member)
  · rw [best.found, extent, Block.extent_append, Block.extent_cons] at whole
    dsimp only at whole
    have limit := clients.heap.heapSize.isLt
    intro _
    rcases exact_ positive blocks holds front old back best with split | ⟨same, other, inside, _⟩
    · omega
    · -- The other block is in front or behind, and takes its header.
      have least : 12 ≤ Block.extent 12 front + Block.extent 12 back := by
        obtain ⟨first, last, parts⟩ := List.mem_iff_append.mp inside
        rw [← Block.extent_append, parts, Block.extent_append, Block.extent_cons]
        omega
      have sized : clients.heap.heapSize.toNat = range.size.toNat := congrArg BitVec.toNat accounted.sound.size
      have end_ := range.inside
      have start := range.positive
      have startAligned := range.startAligned
      have sizeAligned := range.sizeAligned
      omega

/-- An allocation adds what its block takes. -/
theorem counts {front back : List Block} {size old : Nat}
    (exact_ : size + 28 ≤ old ∨ old = size ∧ ∃ block ∈ front ++ back, block.used = false) :
    Block.inUse 12 (front ++ (carve size old ++ back)) = Block.inUse 12 (front ++ ⟨old, false⟩ :: back) + (size + 12) ∧
      ∃ block ∈ front ++ (carve size old ++ back), block.used = false := by
  rw [carve]
  rcases exact_ with split | ⟨same, block, member, unused⟩
  · rw [if_pos split]
    refine ⟨?_, ⟨old - size - 12, false⟩, by simp, rfl⟩
    simp only [List.cons_append, List.nil_append, Block.inUse_append, Block.inUse_cons, Bool.false_eq_true, ↓reduceIte]
    omega
  · rw [if_neg (by omega)]
    refine ⟨?_, block, ?_, unused⟩
    · simp only [List.cons_append, List.nil_append, Block.inUse_append, Block.inUse_cons, Bool.false_eq_true, ↓reduceIte]
      omega
    · rcases List.mem_append.mp member with before | behind
      · exact List.mem_append_left _ before
      · simp [behind]

theorem kmalloc (accounted : Accounted range clients blocks) {size : Word} (exact_ : clients.heap.Exact size) :
    ∃ p other, clients.heap.kmalloc size = some (p, other) ∧
      ∃ new, Accounted range ⟨other, if p = 0 then clients.live else p :: clients.live⟩ new := by
  obtain ⟨sound, counted, free⟩ := accounted
  by_cases zero : size = 0
  · refine ⟨0, clients.heap, by rw [Heap.kmalloc, if_pos zero], blocks, ?_⟩
    rw [if_pos rfl]
    exact ⟨sound, counted, free⟩
  · obtain ⟨p, other, result, frame, outcome⟩ := kmalloc_outcome sound.holds sound.separated zero
      fun _ member fits => splittable ⟨sound, counted, free⟩ zero exact_ member fits
    refine ⟨p, other, result, ?_⟩
    cases outcome with
    | nothing null holds same _ =>
      rw [if_pos null]
      exact ⟨blocks, sound.step_same frame holds, by rw [same, counted], free⟩
    | block front old back best allocated same =>
      obtain ⟨nonnull, next⟩ := sound.step_allocate frame (Nat.dvd_mul_left 4 _) allocated
      rw [if_neg nonnull]
      obtain ⟨taken, still⟩ := @counts front back (rounded size) old
        (exact_ zero blocks sound.holds front old back best)
      rw [← best.found] at taken
      refine ⟨_, next, ?_, still⟩
      have most : 12 + Block.inUse 12 (front ++ (carve (rounded size) old ++ back)) ≤ other.heapSize.toNat :=
        room next still
      have limit := other.heapSize.isLt
      have amount : (clients.heap.heapUsed + (BitVec.ofNat 32 (rounded size) + 12)).toNat =
          clients.heap.heapUsed.toNat + (rounded size + 12) := by
        bv_omega
      change other.heapUsed.toNat = 12 + Block.inUse 12 (front ++ (carve (rounded size) old ++ back))
      rw [same, amount, taken, counted]
      omega

theorem kfree (accounted : Accounted range clients blocks) {p : Word} (member : p ∈ clients.live) :
    ∃ other, clients.heap.kfree p = some other ∧ ∃ new, Accounted range ⟨other, clients.live.erase p⟩ new := by
  obtain ⟨sound, counted, free⟩ := accounted
  obtain ⟨front, size, back, found, place⟩ := sound.split member
  subst found place
  obtain ⟨_, other, result, frame, same, holds⟩ := sound.kfree_returns
  refine ⟨other, result, _, sound.step_free frame holds, ?_, Block.free_coalesce ⟨⟨size, false⟩, by simp, rfl⟩⟩
  have limit := clients.heap.heapUsed.isLt
  rw [Block.inUse_append, Block.inUse_cons, if_pos rfl] at counted
  rw [same, Block.inUse_coalesce, Block.inUse_append, Block.inUse_cons, if_neg (by simp)]
  dsimp only at counted
  have taken : (BitVec.ofNat 32 size + 12).toNat = size + 12 := by bv_omega
  rw [BitVec.toNat_sub_of_le (by rw [BitVec.le_def, taken]; omega), taken]
  omega

theorem step (accounted : Accounted range clients blocks) {after : HeapClients} (step : ExactStep clients after) :
    ∃ new, Accounted range after new := by
  cases step with
  | @kmalloc p heap size exact_ call =>
    obtain ⟨q, other, result, next⟩ := accounted.kmalloc exact_
    obtain ⟨rfl, rfl⟩ := Prod.mk.inj (Option.some.inj (call.symm.trans result))
    exact next
  | @kfree p heap member call =>
    obtain ⟨other, result, next⟩ := accounted.kfree member
    obtain rfl := Option.some.inj (call.symm.trans result)
    exact next
  | @kfreeNull heap call =>
    rw [Heap.kfree, kfreeBlock, if_pos rfl, Option.some.injEq] at call
    subst call
    exact ⟨blocks, accounted⟩
  | @defragment heap call =>
    have holds := accounted.sound.holds
    rw [defragment, mergeFreeBlocks_separated holds accounted.sound.separated, Option.some.injEq] at call
    subst call
    exact ⟨blocks, accounted⟩
  | @store p offset value member inside =>
    obtain ⟨sound, counted, free⟩ := accounted
    obtain ⟨front, size, back, found, place⟩ := sound.split member
    subst found place
    rw [sound.payload_eq] at inside
    exact ⟨_, sound.step_store inside value, counted, free⟩

theorem of_reachable {memory : Memory} (run : Reachable ExactStep (HeapClients.start range memory) clients) :
    ∃ blocks, Accounted range clients blocks := by
  apply run.invariant
  · exact ⟨_, initial range memory⟩
  · intro before after ⟨blocks, accounted⟩ last
    exact accounted.step last

end Accounted

/-- In a run in which `kmalloc` counts what it takes the counter is exact, goes
back to the one header when everything is freed, and is never more than the
size of the heap. -/
theorem heap_used_exact {range : HeapRange} {memory : Memory} {clients : HeapClients}
    (run : Reachable ExactStep (HeapClients.start range memory) clients) :
    (∃ blocks, clients.heap.Holds blocks ∧ clients.heap.heapGetUsed.toNat =
      12 + ((blocks.filter Block.used).map fun block => block.size + 12).sum) ∧
    (clients.live = [] → clients.heap.heapGetUsed = 12) ∧
    clients.heap.heapGetUsed.toNat ≤ clients.heap.heapSize.toNat ∧
    clients.heap.heapGetUsed.toNat + clients.heap.heapGetFree.toNat = clients.heap.heapSize.toNat := by
  obtain ⟨blocks, sound, counted, free⟩ := Accounted.of_reachable run
  have most := Accounted.room sound free
  rw [← counted] at most
  refine ⟨⟨blocks, sound.holds, counted⟩, ?_, most, ?_⟩
  · intro freed
    rw [sound.emptied freed] at counted
    exact BitVec.eq_of_toNat_eq counted
  · rw [heapGetUsed, heapGetFree, BitVec.toNat_sub_of_le most]
    exact Nat.add_sub_cancel' most

/-- The heap of the kernel, 4 MiB; the linker places it. -/
def kernelHeap : HeapRange where
  start := 0x200000
  size := 0x400000
  positive := by decide
  startAligned := by decide
  sizeAligned := by decide
  least := by decide
  inside := by decide

/-- The first allocation takes from the one block that there is. -/
theorem first_kmalloc (memory : Memory) {size : Word} (positive : size ≠ 0) (small : rounded size ≤ 0x3FFFF4) :
    ∃ p other, (HeapClients.start kernelHeap memory).heap.kmalloc size = some (p, other) ∧ p ≠ 0 ∧
      HeapSound kernelHeap ⟨other, [p]⟩ (carve (rounded size) 0x3FFFF4) ∧
      other.heapUsed = 12 + (BitVec.ofNat 32 (rounded size) + 12) := by
  have sound := HeapSound.initial kernelHeap memory
  have whole : kernelHeap.size.toNat - 12 = 0x3FFFF4 := rfl
  rw [whole] at sound
  have splittable : (HeapClients.start kernelHeap memory).heap.Splittable (rounded size) := by
    intro _
    omega
  obtain ⟨p, other, result, frame, outcome⟩ := kmalloc_outcome sound.holds sound.separated positive
    fun _ _ _ => splittable
  refine ⟨p, other, result, ?_⟩
  cases outcome with
  | nothing _ _ _ none => exact absurd ⟨rfl, small⟩ (none _ (List.mem_singleton_self _))
  | block front old back best allocated counter =>
    obtain ⟨nonnull, next⟩ := sound.step_allocate frame (Nat.dvd_mul_left 4 _) allocated
    obtain ⟨rfl, rfl, rfl⟩ := best.single
    rw [List.nil_append, List.append_nil] at next
    exact ⟨nonnull, next, counter⟩

/-- After one allocation of 100 bytes 124 bytes are counted. -/
theorem heap_used_exact_first : ∃ p other, Reachable ExactStep (HeapClients.start kernelHeap fun _ => 0) ⟨other, [p]⟩ ∧
    other.heapUsed = 124 ∧ other.heapGetUsed.toNat + other.heapGetFree.toNat = 0x400000 := by
  obtain ⟨p, other, result, nonnull, sound, counter⟩ := @first_kmalloc (fun _ => 0) 100 (by decide) (by decide)
  have exact_ : (HeapClients.start kernelHeap fun _ => 0).heap.Exact 100 := by
    intro _ blocks holds front old back best
    obtain rfl := holds.unique (HeapSound.initial kernelHeap fun _ => 0).holds
    obtain ⟨_, rfl, _⟩ := best.single
    exact .inl (by decide)
  have run : Reachable ExactStep (HeapClients.start kernelHeap fun _ => 0) ⟨other, [p]⟩ := by
    have step := ExactStep.kmalloc 100 exact_ result
    rw [if_neg nonnull] at step
    exact .single step
  refine ⟨p, other, run, counter, ?_⟩
  rw [(heap_used_exact run).2.2.2]
  exact congrArg BitVec.toNat sound.size

/-- The block of 0x3FFFF4 bytes is too small to be split for 0x3FFFE0 bytes, so
that fewer bytes are counted than `kfree` takes back. -/
theorem heap_used_drifts : ∃ p taken after,
    (HeapClients.start kernelHeap fun _ => 0).heap.kmalloc 0x3FFFE0 = some (p, taken) ∧ taken.kfree p = some after ∧
      Reachable HeapClients.Step (HeapClients.start kernelHeap fun _ => 0) ⟨after, []⟩ ∧
      (∃ blocks, taken.Holds blocks ∧ taken.heapGetUsed.toNat ≠
        12 + ((blocks.filter Block.used).map fun block => block.size + 12).sum) ∧
      after.heapGetUsed = 0xFFFFFFF8 := by
  obtain ⟨p, taken, result, nonnull, sound, counter⟩ :=
    @first_kmalloc (fun _ => 0) 0x3FFFE0 (by decide) (by decide)
  have whole : carve (rounded 0x3FFFE0) 0x3FFFF4 = [] ++ ⟨0x3FFFF4, true⟩ :: [] := by decide
  rw [whole] at sound
  obtain ⟨_, after, freed, _, back, _⟩ := sound.kfree_returns
  have place : p = payloadOf (kernelHeap.start.toNat + extent []) := by
    have live := sound.live
    rw [List.nil_append, Block.usedAddresses, Block.usedAddresses, if_pos rfl] at live
    exact List.singleton_perm_singleton.mp live
  rw [← place] at freed
  refine ⟨p, taken, after, result, freed, ?_, ⟨_, sound.holds, ?_⟩, ?_⟩
  · have step := HeapClients.Step.kmalloc 0x3FFFE0 result
    rw [if_neg nonnull] at step
    have last : HeapClients.Step ⟨taken, [p]⟩ ⟨after, [p].erase p⟩ := .kfree (List.mem_singleton_self p) freed
    rw [List.erase_cons_head] at last
    exact .tail (.single step) last
  · rw [heapGetUsed, counter]
    decide
  · rw [heapGetUsed, back, counter]
    decide

end MexOS.Mm
