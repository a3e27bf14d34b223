import Mathlib.Data.List.Perm.Basic
import MexOS.Mm.HeapInvariant

/-! The heap as its users see it: a list of allocations with their sizes, which
determines the list of blocks. -/

namespace MexOS.Mm

open MexOS.Machine

section Unique

variable {heap : Heap} {address : Nat} {blocks other : List Block}

theorem Heap.Walk.unique (walk : heap.Walk address blocks) (again : heap.Walk address other) : blocks = other := by
  induction blocks generalizing address other with
  | nil =>
    have reach := walk.reach
    cases other with
    | nil => rfl
    | cons block rest =>
      have room := again.room
      rw [extent, Block.extent_nil] at reach
      omega
  | cons block rest ih =>
    have room := walk.room
    cases other with
    | nil =>
      have reach := again.reach
      rw [extent, Block.extent_nil] at reach
      omega
    | cons block' rest' =>
      have size : block.size = block'.size := walk.size_toNat.symm.trans again.size_toNat
      have free := (used_eq_zero walk.header).symm.trans (used_eq_zero again.header)
      have used : block.used = block'.used := by
        cases first : block.used <;> cases second : block'.used <;> simp_all
      obtain rfl : block = block' := by
        cases block
        cases block'
        simp only at size used
        rw [size, used]
      rw [ih walk.tail again.tail]

/-- The memory of a heap holds one list of blocks only. -/
theorem Heap.Holds.unique (holds : heap.Holds blocks) (again : heap.Holds other) : blocks = other :=
  holds.walk.unique again.walk

end Unique

/-- A client's stores into the first `count` bytes behind a pointer. -/
def Heap.fill (heap : Heap) (p : Word) (bytes : Nat → Byte) : Nat → Heap
  | 0 => heap
  | count + 1 =>
    let heap := heap.fill p bytes count
    { heap with memory := storeByte heap.memory (p + BitVec.ofNat 32 count) (bytes count) }

/-- `kfree` of one pointer after the other. -/
def Heap.kfreeAll (heap : Heap) : List Word → Option Heap
  | [] => some heap
  | p :: rest => (heap.kfree p).bind fun heap => heap.kfreeAll rest

/-- The pointer that `kmalloc` returned for an allocation. -/
def pointer (allocation : Nat × Nat) : Word := payloadOf allocation.1

/-- `blocks` is in memory, and `used` are the blocks in use with their sizes. -/
structure HeapUse (range : HeapRange) (heap : Heap) (used : List (Nat × Nat)) (blocks : List Block) : Prop where
  sound : HeapSound range ⟨heap, used.map pointer⟩ blocks
  used : used.Perm (Block.usedBlocks 12 range.start.toNat blocks)

namespace HeapUse

open Heap

variable {range : HeapRange} {heap other : Heap} {used others : List (Nat × Nat)} {blocks new : List Block}

theorem of_sound {live : List Word} (sound : HeapSound range ⟨heap, live⟩ blocks)
    (perm : used.Perm (Block.usedBlocks 12 range.start.toNat blocks)) : HeapUse range heap used blocks := by
  refine ⟨⟨sound.start, sound.size, sound.holds, sound.separated, sound.grained, sound.ends, ?_⟩, perm⟩
  have pointers := perm.map pointer
  rw [← Block.map_usedBlocks, List.map_map]
  exact pointers

/-- Every sound heap is in use in this sense. -/
theorem exists_of_sound {live : List Word} (sound : HeapSound range ⟨heap, live⟩ blocks) :
    ∃ used, HeapUse range heap used blocks ∧ (used.map pointer).Perm live := by
  refine ⟨Block.usedBlocks 12 range.start.toNat blocks, of_sound sound (.refl _), ?_⟩
  have listed := sound.live.symm
  rw [← Block.map_usedBlocks, List.map_map] at listed
  exact listed

theorem perm (use : HeapUse range heap used blocks) (same : others.Perm used) : HeapUse range heap others blocks :=
  of_sound use.sound (same.trans use.used)

/-- What is in use determines the list of blocks. -/
theorem determined (use : HeapUse range heap used blocks) (later : HeapUse range other others new)
    (same : used.Perm others) : blocks = new := by
  apply @Block.eq_of_perm_usedBlocks 12 (by decide) range.start.toNat _ _ use.sound.separated later.sound.separated
  · have whole := use.sound.holds.extent_eq
    have whole' := later.sound.holds.extent_eq
    rw [use.sound.size] at whole
    rw [later.sound.size] at whole'
    exact whole.trans whole'.symm
  · exact use.used.symm.trans (same.trans later.used)

theorem kmalloc (use : HeapUse range heap used blocks) (size : Word) (small : size.toNat + 31 < 2 ^ 32) :
    ∃ p other, heap.kmalloc size = some (p, other) ∧
      (p = 0 ∧ HeapUse range other used blocks ∨ p ≠ 0 ∧ ∃ place bytes new, p = payloadOf place ∧
        size.toNat ≤ bytes ∧ HeapUse range other ((place, bytes) :: used) new) := by
  have rounded : (size + 3).toNat = size.toNat + 3 := by bv_omega
  have splittable : heap.Splittable ((size + 3).toNat / 4 * 4) := by
    intro _
    omega
  obtain ⟨p, other, result, frame, spec⟩ := kmalloc_spec use.sound.holds use.sound.separated size splittable
  refine ⟨p, other, result, ?_⟩
  rcases spec with ⟨null, holds⟩ | ⟨front, old, back, allocated⟩
  · exact .inl ⟨null, of_sound (use.sound.step_same frame holds) use.used⟩
  · obtain ⟨nonnull, sound⟩ := use.sound.step_allocate frame (Nat.dvd_mul_left 4 _) allocated
    obtain ⟨bytes, enough, _, first⟩ := usedBlocks_carve (range.start.toNat + Block.extent 12 front) allocated.enough
    have pointer := allocated.pointer
    rw [use.sound.start] at pointer
    refine .inr ⟨nonnull, range.start.toNat + Block.extent 12 front, bytes, _, pointer, by omega,
      of_sound sound ?_⟩
    have added := @Block.usedBlocks_allocate 12 range.start.toNat old bytes front back _ (extent_carve _ old) first
    rw [← allocated.found] at added
    exact (use.used.cons _).trans added.symm

theorem kfree {place bytes : Nat} (use : HeapUse range heap used blocks) (member : (place, bytes) ∈ used) :
    ∃ other new, heap.kfree (payloadOf place) = some other ∧
      HeapUse range other (used.erase (place, bytes)) new := by
  obtain ⟨front, back, found, here⟩ := Block.mem_usedBlocks (use.used.mem_iff.mp member)
  subst found here
  obtain ⟨_, other, result, frame, _, holds⟩ := use.sound.kfree_returns
  refine ⟨other, _, result, of_sound (use.sound.step_free frame holds) ?_⟩
  rw [Block.usedBlocks_coalesce]
  have removed := (use.used.trans Block.usedBlocks_free).erase
    (range.start.toNat + Block.extent 12 front, bytes)
  rwa [List.erase_cons_head] at removed

theorem kfreeAll {freed rest : List (Nat × Nat)} (use : HeapUse range heap used blocks)
    (split : used.Perm (freed ++ rest)) :
    ∃ other new, heap.kfreeAll (freed.map pointer) = some other ∧ HeapUse range other rest new := by
  induction freed generalizing heap used blocks with
  | nil => exact ⟨heap, blocks, rfl, use.perm split.symm⟩
  | cons entry freed ih =>
    obtain ⟨middle, between, first, useMiddle⟩ := use.kfree (split.mem_iff.mpr List.mem_cons_self)
    have left := split.erase entry
    rw [List.cons_append, List.erase_cons_head] at left
    obtain ⟨other, new, later, useOther⟩ := ih useMiddle left
    refine ⟨other, new, ?_, useOther⟩
    rw [List.map_cons, Heap.kfreeAll]
    change (heap.kfree (payloadOf entry.1)).bind _ = _
    rw [first]
    exact later

theorem store {place bytes offset : Nat} (use : HeapUse range heap used blocks) (member : (place, bytes) ∈ used)
    (inside : offset < bytes) (value : Byte) :
    HeapUse range { heap with memory := storeByte heap.memory (payloadOf place + BitVec.ofNat 32 offset) value }
      used blocks := by
  obtain ⟨front, back, found, here⟩ := Block.mem_usedBlocks (use.used.mem_iff.mp member)
  subst found here
  exact of_sound (use.sound.step_store inside value) use.used

theorem fill {place bytes count : Nat} (use : HeapUse range heap used blocks) (member : (place, bytes) ∈ used)
    (inside : count ≤ bytes) (content : Nat → Byte) :
    HeapUse range (heap.fill (payloadOf place) content count) used blocks := by
  induction count with
  | zero => exact use
  | succ count ih => exact (ih (by omega)).store member (by omega) _

/-- No allocation is at NULL. -/
theorem pointer_ne_zero {entry : Nat × Nat} (use : HeapUse range heap used blocks) (member : entry ∈ used) :
    pointer entry ≠ 0 := by
  obtain ⟨front, size, back, _, _, value, _⟩ := use.sound.locate (List.mem_map_of_mem member)
  intro null
  rw [null] at value
  have zero : (0 : Word).toNat = 0 := rfl
  omega

/-- The allocations behind some of the pointers in use. -/
theorem split {pointers rest : List Word} (listed : (used.map pointer).Perm (pointers ++ rest)) :
    ∃ freed left, used.Perm (freed ++ left) ∧ freed.map pointer = pointers ∧ left.map pointer = rest := by
  have composed := List.eq_map_comp_perm pointer
  have matched : (pointers ++ rest).Perm (used.map pointer) := listed.symm
  have named : Relation.Comp (fun left right => left = List.map pointer right) List.Perm (pointers ++ rest) used := by
    rw [composed]
    exact matched
  obtain ⟨arranged, shape, same⟩ := named
  obtain ⟨freed, left, parts, first, second⟩ := List.append_eq_map_iff.mp shape
  refine ⟨freed, left, ?_, first, second⟩
  rw [← parts]
  exact same.symm

/-- No two allocations share a pointer. -/
theorem distinct (use : HeapUse range heap used blocks) : (used.map pointer).Nodup := use.sound.distinct

end HeapUse

end MexOS.Mm
