import Mathlib.Data.List.Nodup
import MexOS.Machine.Transition
import MexOS.Mm.HeapCalls

/-! The heap and its clients over whole runs: the block list stays a partition
of the heap whose used blocks are the live pointers. -/

namespace MexOS.Mm

open MexOS.Machine

/-- The arguments of `heap_init`. -/
structure HeapRange where
  start : Word
  size : Word
  positive : 0 < start.toNat
  startAligned : start.toNat % 4 = 0
  sizeAligned : size.toNat % 4 = 0
  least : 16 ≤ size.toNat
  inside : start.toNat + size.toNat < 2 ^ 32

/-- The heap together with the pointers its clients hold. -/
structure HeapClients where
  heap : Heap
  live : List Word

namespace HeapClients

open Heap

/-- How many bytes the block behind a pointer holds. -/
def payload (clients : HeapClients) (p : Word) : Nat := (clients.heap.size (p - 12)).toNat

/-- A client stores a byte into its payload. -/
def stored (clients : HeapClients) (p : Word) (offset : Nat) (value : Byte) : Heap :=
  { clients.heap with memory := storeByte clients.heap.memory (p + BitVec.ofNat 32 offset) value }

/-- One call that returns, or a store of a client into its own payload. -/
inductive Step (clients : HeapClients) : HeapClients → Prop
  | kmalloc (size : Word) : clients.heap.kmalloc size = some (p, other) →
    Step clients ⟨other, if p = 0 then clients.live else p :: clients.live⟩
  | kfree : p ∈ clients.live → clients.heap.kfree p = some other → Step clients ⟨other, clients.live.erase p⟩
  | kfreeNull : clients.heap.kfree 0 = some other → Step clients ⟨other, clients.live⟩
  | defragment : clients.heap.defragment = some other → Step clients ⟨other, clients.live⟩
  | store (offset : Nat) (value : Byte) : p ∈ clients.live → offset < clients.payload p →
    Step clients ⟨clients.stored p offset value, clients.live⟩

/-- After `heap_init` nobody holds anything. -/
def start (range : HeapRange) (memory : Memory) : HeapClients := ⟨Heap.init memory range.start range.size, []⟩

end HeapClients

/-- The pointer to the payload of the block at an address. -/
def payloadOf (address : Nat) : Word := BitVec.ofNat 32 (address + 12)

/-- What the runs keep: `blocks` is in memory, and the live pointers are the
payloads of its used blocks. -/
structure HeapSound (range : HeapRange) (clients : HeapClients) (blocks : List Block) : Prop where
  start : clients.heap.heapStart = range.start
  size : clients.heap.heapSize = range.size
  holds : clients.heap.Holds blocks
  separated : Block.Separated blocks
  grained : Block.Grained 4 blocks
  ends : Block.Ends blocks
  live : clients.live.Perm ((Block.usedAddresses 12 range.start.toNat blocks).map payloadOf)

namespace HeapSound

open Heap

variable {range : HeapRange} {clients : HeapClients} {blocks : List Block}

theorem initial (range : HeapRange) (memory : Memory) :
    HeapSound range (HeapClients.start range memory) [⟨range.size.toNat - 12, false⟩] := by
  have inside := range.inside
  have least := range.least
  have place : BitVec.ofNat 32 range.start.toNat = range.start := by simp
  have amount : BitVec.ofNat 32 (range.size.toNat - 12) = range.size - 12 := by bv_omega
  have written := header_write ⟨memory, range.start, range.size, 12⟩
    (by omega : range.start.toNat + 12 ≤ 2 ^ 32) (range.size.toNat - 12) false 0
  rw [place, amount] at written
  have last : range.start.toNat + 12 + (range.size.toNat - 12) = range.start.toNat + range.size.toNat := by omega
  refine ⟨rfl, rfl, ⟨⟨range.positive, inside, Nat.le_refl _, ?_, ?_⟩, by simp⟩, .singleton _, ?_, ?_, .nil⟩
  · have next : link (HeapClients.start range memory).heap.stop
        (range.start.toNat + 12 + (range.size.toNat - 12)) = 0 := if_pos last
    change Header _ _ _ (link _ (range.start.toNat + 12 + (range.size.toNat - 12)))
    rw [next]
    exact written
  · exact last
  · intro block member
    rw [List.mem_singleton] at member
    subst member
    have aligned := range.sizeAligned
    simp only
    omega
  · intro block member
    simp only [List.getLast?_singleton, Option.mem_def, Option.some.injEq] at member
    subst member
    simp only
    omega

/-- A live pointer is the payload of a used block. -/
theorem split (sound : HeapSound range clients blocks) (member : p ∈ clients.live) :
    ∃ front bytes back, blocks = front ++ ⟨bytes, true⟩ :: back ∧
      p = payloadOf (range.start.toNat + extent front) := by
  obtain ⟨address, used, place⟩ := List.mem_map.mp (sound.live.mem_iff.mp member)
  obtain ⟨front, bytes, back, split, here⟩ := Block.mem_usedAddresses.mp used
  exact ⟨front, bytes, back, split, by rw [← place, here]⟩

/-- A step that leaves the list of blocks as it is. -/
theorem step_same {heap : Heap} (sound : HeapSound range clients blocks) (frame : Frame clients.heap heap)
    (holds : heap.Holds blocks) : HeapSound range ⟨heap, clients.live⟩ blocks :=
  ⟨frame.heapStart.trans sound.start, frame.heapSize.trans sound.size, holds, sound.separated, sound.grained,
    sound.ends, sound.live⟩

theorem small (sound : HeapSound range clients blocks) (fits : range.size.toNat ≤ 2 ^ 32 - 20) (size : Nat) :
    clients.heap.Splittable size := by
  intro holds
  rw [sound.size] at holds
  omega

theorem step_allocate {heap : Heap} {p : Word} {size old : Nat} {front back : List Block}
    (sound : HeapSound range clients blocks) (frame : Frame clients.heap heap) (rounded : 4 ∣ size)
    (allocated : Allocated clients.heap blocks size p heap front old back) :
    p ≠ 0 ∧ HeapSound range ⟨heap, p :: clients.live⟩ (front ++ (carve size old ++ back)) := by
  have found := allocated.found
  have pointer := allocated.pointer
  have inside := range.inside
  have whole := sound.holds.extent_eq
  have ends := sound.ends
  have separated := sound.separated
  have live := sound.live
  have grained := sound.grained
  subst found
  have place := sound.holds.payload_lt ends
  rw [stop, sound.start, sound.size] at place
  rw [sound.start] at pointer
  constructor
  · rw [pointer]
    exact ofNat_ne_zero (by omega) (by omega)
  refine ⟨frame.heapStart.trans sound.start, frame.heapSize.trans sound.size, allocated.holds,
    separated_carve separated, grained_carve rounded grained, ends_carve ends, ?_⟩
  have added := @Block.usedAddresses_allocate 12 range.start.toNat old front back (carve size old)
    (extent_carve size old) (usedAddresses_carve _ _ _)
  rw [pointer]
  exact (live.cons _).trans (added.map payloadOf).symm

theorem step_free {heap : Heap} {front back : List Block} {size : Nat}
    (sound : HeapSound range clients (front ++ ⟨size, true⟩ :: back)) (frame : Frame clients.heap heap)
    (holds : heap.Holds (Block.coalesce 12 (front ++ ⟨size, false⟩ :: back))) :
    HeapSound range ⟨heap, clients.live.erase (payloadOf (range.start.toNat + extent front))⟩
      (Block.coalesce 12 (front ++ ⟨size, false⟩ :: back)) := by
  have sizes : (front ++ ⟨size, false⟩ :: back).map Block.size = (front ++ ⟨size, true⟩ :: back).map Block.size := by
    simp
  refine ⟨frame.heapStart.trans sound.start, frame.heapSize.trans sound.size, holds, Block.separated_coalesce _,
    (sound.grained.of_sizes sizes).coalesce (by decide), (sound.ends.of_sizes sizes).coalesce, ?_⟩
  have used : range.start.toNat + extent front ∈
      Block.usedAddresses 12 range.start.toNat (front ++ ⟨size, true⟩ :: back) :=
    Block.mem_usedAddresses.mpr ⟨front, size, back, rfl, rfl⟩
  have left := (List.perm_cons_erase used).map payloadOf
  rw [Block.usedAddresses_coalesce, Block.usedAddresses_free (by decide)]
  have erased := (sound.live.trans left).erase (payloadOf (range.start.toNat + extent front))
  rw [List.map_cons, List.erase_cons_head] at erased
  exact erased

/-- Stores into the payload of a block leave all headers alone. -/
theorem step_payload {heap : Heap} {front back : List Block} {size : Nat}
    (sound : HeapSound range clients (front ++ ⟨size, true⟩ :: back)) (frame : Frame clients.heap heap)
    (kept : ∀ place < 2 ^ 32, place < range.start.toNat + extent front + 12 ∨ range.start.toNat + extent front + 12 + size ≤ place →
      heap.memory (BitVec.ofNat 32 place) = clients.heap.memory (BitVec.ofNat 32 place)) :
    HeapSound range ⟨heap, clients.live⟩ (front ++ ⟨size, true⟩ :: back) := by
  have walk := sound.holds.from_here
  have room := walk.room
  have bounded := walk.bounded
  rw [← sound.start] at kept
  simp only at room
  refine sound.step_same frame (sound.holds.replace frame (walk.rewrite frame ⟨?_, ?_⟩) (by simp) ?_)
  · exact walk.header.congr fun place lower upper => kept place (by omega) (.inl (by omega))
  · exact walk.span.2.congr fun place lower upper => kept place (by omega) (.inr (by simp only at lower; omega))
  · exact fun place lower upper => kept place (by omega) (.inl (by omega))

theorem step_store {front back : List Block} {size offset : Nat}
    (sound : HeapSound range clients (front ++ ⟨size, true⟩ :: back)) (inside : offset < size) (value : Byte) :
    HeapSound range
      ⟨clients.stored (payloadOf (range.start.toNat + extent front)) offset value, clients.live⟩
      (front ++ ⟨size, true⟩ :: back) := by
  have room := sound.holds.from_here.room
  have bounded := sound.holds.walk.bounded
  rw [sound.start] at room
  simp only at room
  refine sound.step_payload ⟨rfl, rfl⟩ fun place small apart => ?_
  rw [HeapClients.stored, payloadOf, ofNat_offset]
  exact storeByte_outside small (by omega) (by omega)

theorem payload_eq {front back : List Block} {size : Nat}
    (sound : HeapSound range clients (front ++ ⟨size, true⟩ :: back)) :
    clients.payload (payloadOf (range.start.toNat + extent front)) = size := by
  have place : payloadOf (range.start.toNat + extent front) - 12 =
      BitVec.ofNat 32 (clients.heap.heapStart.toNat + extent front) := by
    rw [payloadOf, sound.start]
    bv_omega
  rw [HeapClients.payload, place]
  exact sound.holds.from_here.size_toNat

theorem kfree_returns {front back : List Block} {size : Nat}
    (sound : HeapSound range clients (front ++ ⟨size, true⟩ :: back)) :
    clients.heap.kfreeBlock (payloadOf (range.start.toNat + extent front)) =
        some (payloadOf (range.start.toNat + extent front) - 12) ∧
      ∃ other, clients.heap.kfree (payloadOf (range.start.toNat + extent front)) = some other ∧
        Frame clients.heap other ∧ other.heapUsed = clients.heap.heapUsed - (BitVec.ofNat 32 size + 12) ∧
        other.Holds (Block.coalesce 12 (front ++ ⟨size, false⟩ :: back)) := by
  have target := kfreeBlock_spec sound.holds sound.ends
  have place : BitVec.ofNat 32 (range.start.toNat + extent front) =
      payloadOf (range.start.toNat + extent front) - 12 := by
    rw [payloadOf]
    bv_omega
  have freed := kfree_spec sound.holds sound.ends
  rw [sound.start] at target freed
  rw [place] at target
  exact ⟨target, freed⟩

/-- Every step keeps the heap sound, for some list of blocks. -/
theorem step (fits : range.size.toNat ≤ 2 ^ 32 - 20) {after : HeapClients}
    (sound : HeapSound range clients blocks) (step : HeapClients.Step clients after) :
    ∃ new, HeapSound range after new := by
  cases step with
  | @kmalloc p heap size call =>
    obtain ⟨q, other, result, frame, spec⟩ := kmalloc_spec sound.holds sound.separated size (sound.small fits _)
    rw [call, Option.some.injEq, Prod.mk.injEq] at result
    obtain ⟨samePointer, sameHeap⟩ := result
    subst samePointer sameHeap
    obtain ⟨null, holds⟩ | ⟨front, old, back, allocated⟩ := spec
    · refine ⟨blocks, ?_⟩
      rw [if_pos null]
      exact sound.step_same frame holds
    · obtain ⟨nonnull, next⟩ := sound.step_allocate frame (Nat.dvd_mul_left 4 _) allocated
      rw [if_neg nonnull]
      exact ⟨_, next⟩
  | @kfree p heap member call =>
    obtain ⟨front, size, back, found, place⟩ := sound.split member
    subst found place
    obtain ⟨_, other, result, frame, _, holds⟩ := sound.kfree_returns
    rw [call, Option.some.injEq] at result
    subst result
    exact ⟨_, sound.step_free frame holds⟩
  | @kfreeNull heap call =>
    have same : heap = clients.heap := by
      rw [kfree, kfreeBlock, if_pos rfl, Option.some.injEq] at call
      exact call.symm
    subst same
    exact ⟨blocks, sound⟩
  | @defragment heap call =>
    rw [defragment, mergeFreeBlocks_separated sound.holds sound.separated, Option.some.injEq] at call
    subst call
    exact ⟨blocks, sound⟩
  | @store p offset value member inside =>
    obtain ⟨front, size, back, found, place⟩ := sound.split member
    subst found place
    rw [sound.payload_eq] at inside
    exact ⟨_, sound.step_store inside value⟩

/-- What a run that starts with `heap_init` gets to. -/
theorem run (fits : range.size.toNat ≤ 2 ^ 32 - 20) {memory : Memory}
    (reach : Reachable HeapClients.Step (HeapClients.start range memory) clients) :
    ∃ blocks, HeapSound range clients blocks := by
  apply reach.invariant
  · exact ⟨_, initial range memory⟩
  · intro before after ⟨blocks, sound⟩ last
    exact sound.step fits last

end HeapSound

/-- The block list of a heap and the pointers into it, as the clients need
them. -/
structure HeapOk (range : HeapRange) (clients : HeapClients) (blocks : List Block) : Prop where
  start : clients.heap.heapStart = range.start
  holds : clients.heap.Holds blocks
  whole : extent blocks = range.size.toNat
  separated : Block.Separated blocks
  distinct : clients.live.Nodup
  aligned : ∀ p ∈ clients.live, p.toNat % 4 = 0
  owned : ∀ p ∈ clients.live, 12 ≤ p.toNat ∧
    (Block.usedAddresses 12 range.start.toNat blocks).count (p.toNat - 12) = 1
  payloadsApart : ∀ p ∈ clients.live, ∀ q ∈ clients.live, p ≠ q →
    p.toNat + clients.payload p ≤ q.toNat ∨ q.toNat + clients.payload q ≤ p.toNat
  headersApart : ∀ p ∈ clients.live, ∀ front block back, blocks = front ++ block :: back →
    range.start.toNat + extent front + 12 ≤ p.toNat ∨
      p.toNat + clients.payload p ≤ range.start.toNat + extent front
  frees : ∀ p ∈ clients.live, clients.heap.kfreeBlock p = some (p - 12) ∧
    ∃ other after, clients.heap.kfree p = some other ∧ other.Holds after ∧
      Block.usedAddresses 12 range.start.toNat after =
        (Block.usedAddresses 12 range.start.toNat blocks).erase (p.toNat - 12)
  returns : (∀ size, (clients.heap.kmalloc size).isSome) ∧ (clients.heap.kfree 0).isSome ∧
    clients.heap.defragment.isSome
  emptied : clients.live = [] → blocks = [⟨range.size.toNat - 12, false⟩]

namespace HeapSound

open Heap

variable {range : HeapRange} {clients : HeapClients} {blocks : List Block}

theorem payload_toNat {front back : List Block} {block : Block}
    (sound : HeapSound range clients (front ++ block :: back)) :
    (payloadOf (range.start.toNat + extent front)).toNat = range.start.toNat + extent front + 12 := by
  have inside := range.inside
  have place := sound.holds.payload_lt sound.ends
  rw [stop, sound.start, sound.size] at place
  rw [payloadOf, BitVec.toNat_ofNat]
  omega

/-- A live pointer with the block behind it. -/
theorem locate (sound : HeapSound range clients blocks) (member : p ∈ clients.live) :
    ∃ front size back, blocks = front ++ ⟨size, true⟩ :: back ∧
      p = payloadOf (range.start.toNat + extent front) ∧
      p.toNat = range.start.toNat + extent front + 12 ∧ clients.payload p = size := by
  obtain ⟨front, size, back, found, place⟩ := sound.split member
  subst found place
  exact ⟨front, size, back, rfl, rfl, sound.payload_toNat, sound.payload_eq⟩

theorem distinct (sound : HeapSound range clients blocks) : clients.live.Nodup := by
  rw [sound.live.nodup_iff]
  apply List.Nodup.map_on _ (Block.nodup_usedAddresses (by decide) _ _)
  intro left leftUsed right rightUsed same
  obtain ⟨front, size, back, found, leftPlace⟩ := Block.mem_usedAddresses.mp leftUsed
  obtain ⟨front', size', back', found', rightPlace⟩ := Block.mem_usedAddresses.mp rightUsed
  subst leftPlace rightPlace
  have leftValue := (found ▸ sound).payload_toNat
  have rightValue := (found' ▸ sound).payload_toNat
  rw [same] at leftValue
  simp only [extent] at leftValue rightValue
  omega

theorem aligned (sound : HeapSound range clients blocks) (member : p ∈ clients.live) : p.toNat % 4 = 0 := by
  obtain ⟨front, size, back, found, _, value, _⟩ := sound.locate member
  have inFront : Block.Grained 4 front := by
    intro block inside
    apply sound.grained
    rw [found]
    exact List.mem_append_left _ inside
  have whole : 4 ∣ extent front := inFront.extent (by decide)
  have first := range.startAligned
  rw [value]
  omega

theorem owned (sound : HeapSound range clients blocks) (member : p ∈ clients.live) : 12 ≤ p.toNat ∧
    (Block.usedAddresses 12 range.start.toNat blocks).count (p.toNat - 12) = 1 := by
  obtain ⟨front, size, back, found, _, value, _⟩ := sound.locate member
  refine ⟨by omega, ?_⟩
  apply List.count_eq_one_of_mem (Block.nodup_usedAddresses (by decide) _ _)
  rw [value, Nat.add_sub_cancel]
  exact Block.mem_usedAddresses.mpr ⟨front, size, back, found, rfl⟩

theorem headersApart (sound : HeapSound range clients blocks) (member : p ∈ clients.live) {front back : List Block}
    {block : Block} (found : blocks = front ++ block :: back) :
    range.start.toNat + extent front + 12 ≤ p.toNat ∨
      p.toNat + clients.payload p ≤ range.start.toNat + extent front := by
  obtain ⟨front', size, back', found', _, value, amount⟩ := sound.locate member
  rw [found] at found'
  simp only [extent] at *
  obtain ⟨same, _⟩ | before | behind := @Block.split_cases 12 _ _ _ _ _ _ found'
  · rw [same]
    exact .inl (by omega)
  · exact .inl (by omega)
  · simp only at behind
    exact .inr (by omega)

theorem payloadsApart (sound : HeapSound range clients blocks) (left : p ∈ clients.live) (right : q ∈ clients.live)
    (differ : p ≠ q) : p.toNat + clients.payload p ≤ q.toNat ∨ q.toNat + clients.payload q ≤ p.toNat := by
  obtain ⟨front, size, back, found, place, value, amount⟩ := sound.locate left
  obtain ⟨front', size', back', found', place', value', amount'⟩ := sound.locate right
  rw [found] at found'
  simp only [extent] at *
  obtain ⟨same, _⟩ | before | behind := @Block.split_cases 12 _ _ _ _ _ _ found'
  · rw [place, place', same] at differ
    exact absurd rfl differ
  · simp only at before
    exact .inl (by omega)
  · simp only at behind
    exact .inr (by omega)

theorem frees (sound : HeapSound range clients blocks) (member : p ∈ clients.live) :
    clients.heap.kfreeBlock p = some (p - 12) ∧
    ∃ other after, clients.heap.kfree p = some other ∧ other.Holds after ∧
      Block.usedAddresses 12 range.start.toNat after =
        (Block.usedAddresses 12 range.start.toNat blocks).erase (p.toNat - 12) := by
  obtain ⟨front, size, back, found, place, value, _⟩ := sound.locate member
  subst found place
  obtain ⟨target, other, result, _, _, holds⟩ := sound.kfree_returns
  refine ⟨target, other, _, result, holds, ?_⟩
  rw [Block.usedAddresses_coalesce, Block.usedAddresses_free (by decide), value, Nat.add_sub_cancel]

theorem emptied (sound : HeapSound range clients blocks) (free : clients.live = []) :
    blocks = [⟨range.size.toNat - 12, false⟩] := by
  have live := sound.live
  rw [free] at live
  have unused := List.map_eq_nil_iff.mp live.nil_eq.symm
  obtain ⟨size, single⟩ := Block.single_of_unused sound.holds.nonempty sound.separated unused
  have whole := sound.holds.extent_eq
  rw [single, sound.size, extent, Block.extent_cons, Block.extent_nil] at whole
  have amount : size = range.size.toNat - 12 := by
    simp only at whole
    omega
  rw [single, amount]

theorem ok (fits : range.size.toNat ≤ 2 ^ 32 - 20) (sound : HeapSound range clients blocks) :
    HeapOk range clients blocks where
  start := sound.start
  holds := sound.holds
  whole := by rw [sound.holds.extent_eq, sound.size]
  separated := sound.separated
  distinct := sound.distinct
  aligned _ member := sound.aligned member
  owned _ member := sound.owned member
  payloadsApart _ left _ right differ := sound.payloadsApart left right differ
  headersApart _ member _ _ _ found := sound.headersApart member found
  frees _ member := sound.frees member
  returns := by
    refine ⟨?_, rfl, ?_⟩
    · intro size
      obtain ⟨_, _, result, _⟩ := kmalloc_spec sound.holds sound.separated size (sound.small fits _)
      rw [result]
      rfl
    · obtain ⟨_, result, _⟩ := mergeFreeBlocks_spec sound.holds
      rw [defragment, result]
      rfl
  emptied := sound.emptied

end HeapSound

section Overflow

open Heap

variable {range : HeapRange}

/-- In a heap this large the sum in `split_block` wraps for the whole of it. -/
theorem split_wraps (large : 2 ^ 32 - 20 < range.size.toNat) :
    range.size - 12 ≥ range.size - 12 + 12 + 16 := by
  have inside := range.inside
  have positive := range.positive
  have startAligned := range.startAligned
  have sizeAligned := range.sizeAligned
  bv_omega

theorem findBestFit_whole (range : HeapRange) (memory : Memory) :
    (HeapClients.start range memory).heap.findBestFit (range.size - 12) = some range.start := by
  have walk := (HeapSound.initial range memory).holds.walk
  have located : (HeapClients.start range memory).heap.heapStart = range.start := rfl
  have place : BitVec.ofNat 32 range.start.toNat = range.start := by simp
  have amount : BitVec.ofNat 32 (range.size.toNat - 12) = range.size - 12 := by
    have least := range.least
    bv_omega
  rw [located] at walk
  have nonnull := walk.ne_zero
  have free := (used_eq_zero walk.header).mpr rfl
  have whole := size_eq walk.header
  simp only [place, amount] at nonnull free whole
  have turns : maxTurns = (2 ^ 32 - 1) + 1 := rfl
  have fits : (HeapClients.start range memory).heap.size range.start ≥ range.size - 12 := by
    rw [whole]
    exact BitVec.le_refl _
  rw [findBestFit, turns, findLoop, located, if_neg nonnull, if_pos ⟨free, fits⟩, whole, BitVec.sub_self]
  rfl

/-- The last three stores of an allocation with a split go to different fields. -/
theorem claim_fields (heap : Heap) {address : Nat} (bounded : address + 12 ≤ 2 ^ 32) (size successor : Word) :
    let done := ((heap.setSize (BitVec.ofNat 32 address) size).setNext (BitVec.ofNat 32 address)
      successor).setUsed (BitVec.ofNat 32 address) 1
    done.size (BitVec.ofNat 32 address) = size ∧ done.next (BitVec.ofNat 32 address) = successor ∧
      done.used (BitVec.ofNat 32 address) = 1 := by
  have cell : BitVec.ofNat 32 address + 8 = BitVec.ofNat 32 (address + 8) := ofNat_offset address 8
  refine ⟨?_, ?_, Function.update_self _ _ _⟩
  · exact (loadWord_of_same (setUsed_same _ bounded (by omega) (by omega))).trans
      ((loadWord_of_same (setNext_same _ bounded (by omega) (by omega))).trans (loadWord_storeWord_self _ _ _))
  · rw [Heap.next, cell]
    refine (loadWord_of_same (setUsed_same _ bounded (by omega) (by omega))).trans ?_
    rw [← cell]
    exact loadWord_storeWord_self _ _ _

/-- What `kmalloc` leaves in the first header then. -/
theorem kmalloc_whole (memory : Memory) (large : 2 ^ 32 - 20 < range.size.toNat) :
    ∃ other, (HeapClients.start range memory).heap.kmalloc (range.size - 12) = some (range.start + 12, other) ∧
      Frame (HeapClients.start range memory).heap other ∧
      other.size range.start = range.size - 12 ∧ other.next range.start = range.start + range.size ∧
      other.used range.start = 1 := by
  have inside := range.inside
  have sizeAligned := range.sizeAligned
  have positive : range.size - 12 ≠ 0 := by bv_omega
  have rounded : (range.size - 12 + 3) &&& ~~~3 = range.size - 12 := by
    apply BitVec.eq_of_toNat_eq
    rw [round_toNat]
    bv_omega
  have found := findBestFit_whole range memory
  have walk := (HeapSound.initial range memory).holds.walk
  have located : (HeapClients.start range memory).heap.heapStart = range.start := rfl
  have place : BitVec.ofNat 32 range.start.toNat = range.start := by simp
  have amount : BitVec.ofNat 32 (range.size.toNat - 12) = range.size - 12 := by bv_omega
  have behind : range.start + 12 + (range.size - 12) = range.start + range.size := by bv_omega
  have nonnull : range.start ≠ 0 := by
    have nonnull := walk.ne_zero
    rw [located, place] at nonnull
    exact nonnull
  have whole := size_eq walk.header
  simp only [located, place, amount] at whole
  refine ⟨((HeapClients.start range memory).heap.take range.start (range.size - 12)).2, ?_, ?_⟩
  · rw [kmalloc, if_neg positive, rounded, kmallocRounded_found found nonnull]
    rfl
  have wraps : (HeapClients.start range memory).heap.size range.start ≥ range.size - 12 + 12 + 16 := by
    rw [whole]
    exact split_wraps large
  simp only [take, splitBlock, wraps, ↓reduceIte, behind]
  generalize stored : (((Heap.setSize _ _ _).setUsed _ _).setNext _ _) = written
  have frame : Frame (HeapClients.start range memory).heap written := by
    rw [← stored]
    exact ⟨rfl, rfl⟩
  have bounded : range.start.toNat + 12 ≤ 2 ^ 32 := by omega
  have fields := claim_fields written bounded (range.size - 12) (range.start + range.size)
  rw [place] at fields
  exact ⟨⟨frame.heapStart, frame.heapSize⟩, fields⟩

/-- Such a header belongs to no partition of the heap. -/
theorem not_holds_overflow {heap : Heap} {blocks : List Block} (located : heap.heapStart = range.start)
    (sized : heap.heapSize = range.size) (first : heap.size range.start = range.size - 12)
    (second : heap.next range.start = range.start + range.size) : ¬ heap.Holds blocks := by
  intro holds
  have inside := range.inside
  have positive := range.positive
  have least := range.least
  have place : BitVec.ofNat 32 range.start.toNat = range.start := by simp
  have walk := holds.walk
  rw [located] at walk
  cases blocks with
  | nil => exact holds.nonempty rfl
  | cons block rest =>
    have amount := walk.size_toNat
    have room := walk.room
    rw [place, first] at amount
    rw [stop, located, sized] at room
    have whole : (range.size - 12).toNat = range.size.toNat - 12 := by bv_omega
    have nothing : extent rest = 0 := by omega
    cases rest with
    | nil =>
      have last := walk.next_last
      rw [place, second] at last
      bv_omega
    | cons follower rest =>
      rw [extent, Block.extent_cons] at nothing
      omega

/-- One call of `kmalloc` breaks a heap this large. -/
theorem step_overflow (memory : Memory) (large : 2 ^ 32 - 20 < range.size.toNat) :
    ∃ other, (HeapClients.start range memory).heap.kmalloc (range.size - 12) = some (range.start + 12, other) ∧
      HeapClients.Step (HeapClients.start range memory) ⟨other, [range.start + 12]⟩ ∧
      ∀ blocks, ¬ HeapOk range ⟨other, [range.start + 12]⟩ blocks := by
  have inside := range.inside
  obtain ⟨other, call, frame, first, second, _⟩ := kmalloc_whole memory large
  refine ⟨other, call, ?_, ?_⟩
  · have nonnull : range.start + 12 ≠ 0 := by bv_omega
    have step := HeapClients.Step.kmalloc _ call
    rw [if_neg nonnull] at step
    exact step
  · intro blocks ok
    exact not_holds_overflow frame.heapStart frame.heapSize first second ok.holds

end Overflow

/-- Every run keeps the block list a partition, the live pointers apart and
`kfree` on the right block, exactly when the heap has at most 2^32 - 20 bytes:
in a larger one `split_block` adds up to less than the size of the block. -/
theorem heap_partition_iff (range : HeapRange) :
    (∀ memory clients, Reachable HeapClients.Step (HeapClients.start range memory) clients →
      ∃ blocks, HeapOk range clients blocks) ↔ range.size.toNat ≤ 2 ^ 32 - 20 := by
  constructor
  · intro kept
    apply Nat.le_of_not_lt
    intro large
    obtain ⟨other, _, step, broken⟩ := step_overflow (fun _ => 0) large
    obtain ⟨blocks, ok⟩ := kept (fun _ => 0) ⟨other, [range.start + 12]⟩ (.single step)
    exact broken blocks ok
  · intro fits memory clients reach
    obtain ⟨blocks, sound⟩ := HeapSound.run fits reach
    exact ⟨blocks, sound.ok fits⟩

/-- A heap over nearly all of the address space. -/
def wideRange : HeapRange where
  start := 4
  size := 0xFFFFFFF0
  positive := by decide
  startAligned := by decide
  sizeAligned := by decide
  least := by decide
  inside := by decide

theorem heap_partition_broken_by_wrap :
    ∃ other, (HeapClients.start wideRange fun _ => 0).heap.kmalloc 0xFFFFFFE4 = some (16, other) ∧
      HeapClients.Step (HeapClients.start wideRange fun _ => 0) ⟨other, [16]⟩ ∧
      ∀ blocks, ¬ HeapOk wideRange ⟨other, [16]⟩ blocks :=
  @step_overflow wideRange (fun _ => 0) (by decide)

end MexOS.Mm
