import MexOS.Mm.HeapLoops

/-! `kmalloc` and `kfree` on a heap that holds a list of blocks. -/

namespace MexOS.Mm.Heap

open MexOS.Machine

/-- What taking `size` bytes makes of a free block of `old` bytes. -/
def carve (size old : Nat) : List Block :=
  if size + 28 ≤ old then [⟨size, true⟩, ⟨old - size - 12, false⟩] else [⟨old, true⟩]

section Carve

variable {size old : Nat} {front back : List Block}

theorem carve_ne_nil (size old : Nat) : carve size old ≠ [] := by
  unfold carve
  split <;> simp

theorem extent_carve (size old : Nat) : extent (carve size old) = 12 + old := by
  unfold carve extent
  split
  · simp only [Block.extent_cons, Block.extent_nil]
    omega
  · simp only [Block.extent_cons, Block.extent_nil, Nat.add_zero]

theorem usedAddresses_carve (address size old : Nat) :
    Block.usedAddresses 12 address (carve size old) = [address] := by
  unfold carve
  split <;> simp [Block.usedAddresses]

/-- `split_block` hands out a new block, or the whole old one if too little would be left. -/
theorem usedBlocks_carve (address : Nat) (enough : size ≤ old) :
    ∃ bytes, size ≤ bytes ∧ bytes < size + 28 ∧ Block.usedBlocks 12 address (carve size old) = [(address, bytes)] := by
  unfold carve
  split
  · exact ⟨size, Nat.le_refl _, by omega, by simp [Block.usedBlocks]⟩
  · exact ⟨old, enough, by omega, by simp [Block.usedBlocks]⟩

theorem separated_carve (separated : Block.Separated (front ++ ⟨old, false⟩ :: back)) :
    Block.Separated (front ++ (carve size old ++ back)) := by
  unfold carve
  split
  · exact separated.carve
  · exact separated.allocate

theorem grained_carve (rounded : 4 ∣ size) (grained : Block.Grained 4 (front ++ ⟨old, false⟩ :: back)) :
    Block.Grained 4 (front ++ (carve size old ++ back)) := by
  have whole : 4 ∣ old := grained ⟨old, false⟩ (by simp)
  intro block member
  rw [List.mem_append, List.mem_append] at member
  obtain before | taken | behind := member
  · exact grained block (by simp [before])
  · unfold carve at taken
    split at taken
    · simp only [List.mem_cons, List.not_mem_nil, or_false] at taken
      obtain same | same := taken
      · rw [same]
        exact rounded
      · rw [same]
        exact Nat.dvd_sub (Nat.dvd_sub whole rounded) (by decide)
    · rw [List.mem_singleton.mp taken]
      exact whole
  · exact grained block (by simp [behind])

theorem ends_carve (ends : Block.Ends (front ++ ⟨old, false⟩ :: back)) :
    Block.Ends (front ++ (carve size old ++ back)) := by
  cases back with
  | nil =>
    have last := ends ⟨old, false⟩ (by simp)
    intro block member
    unfold carve at member
    split at member
    · simp at member
      subst member
      simp only
      omega
    · simp at member
      subst member
      exact last
  | cons next back =>
    intro block member
    exact ends block (by simpa using member)

end Carve

section Split

variable {heap : Heap} {address old : Nat} {back : List Block} {size : Word}

/-- The condition of `split_block` does not wrap for a size it can meet in a
heap of at most 2^32 - 20 bytes. -/
theorem splits_iff (walk : Walk heap address (⟨old, false⟩ :: back)) (fits : size.toNat + 28 < 2 ^ 32) :
    heap.size (BitVec.ofNat 32 address) ≥ size + 12 + 16 ↔ size.toNat + 28 ≤ old := by
  have sum : (size + 12 + 16).toNat = size.toNat + 28 := by bv_omega
  rw [ge_iff_le, BitVec.le_def, walk.size_toNat, sum]

/-- The header that `split_block` writes behind the block, before it changes
the block itself. -/
theorem split_behind (walk : Walk heap address (⟨old, false⟩ :: back)) (split : size.toNat + 28 ≤ old) :
    let newBlock := BitVec.ofNat 32 address + 12 + size
    let sized := heap.setSize newBlock (heap.size (BitVec.ofNat 32 address) - size - 12)
    let freed := sized.setUsed newBlock 0
    let linked := freed.setNext newBlock (freed.next (BitVec.ofNat 32 address))
    Header linked.memory (address + 12 + size.toNat) ⟨old - size.toNat - 12, false⟩
        (link heap.stop (address + 12 + old)) ∧
      heap.Same linked 0 (address + 12 + size.toNat) ∧ heap.Same linked (address + 24 + size.toNat) (2 ^ 32) := by
  intro newBlock sized freed linked
  have room := walk.room
  have bounded := walk.bounded
  simp only at room
  have place : newBlock = BitVec.ofNat 32 (address + 12 + size.toNat) := by
    simp only [newBlock]
    rw [BitVec.ofNat_add, BitVec.ofNat_add, BitVec.ofNat_toNat, BitVec.setWidth_eq]
    rfl
  have amount : heap.size (BitVec.ofNat 32 address) - size - 12 = BitVec.ofNat 32 (old - size.toNat - 12) := by
    have whole := walk.size_toNat
    simp only at whole
    apply BitVec.eq_of_toNat_eq
    rw [BitVec.toNat_ofNat]
    bv_omega
  -- The stores so far leave everything below the new block alone, so the old `next` is still there.
  have below_sized : heap.Same sized 0 (address + 12 + size.toNat) := by
    simp only [sized, place]
    exact setSize_same _ (by omega) (by omega) (by omega)
  have below_freed : sized.Same freed 0 (address + 12 + size.toNat) := by
    simp only [freed, place]
    exact setUsed_same _ (by omega) (by omega) (by omega)
  have header_freed : Header freed.memory address ⟨old, false⟩ (link heap.stop (address + 12 + old)) := by
    apply walk.header.congr
    intro byte lower upper
    rw [below_freed byte (by omega) (by omega), below_sized byte (by omega) (by omega)]
  have old_next : freed.next (BitVec.ofNat 32 address) = BitVec.ofNat 32 (link heap.stop (address + 12 + old)) :=
    next_eq header_freed
  have below_linked : freed.Same linked 0 (address + 12 + size.toNat) := by
    simp only [linked, place]
    exact setNext_same _ (by omega) (by omega) (by omega)
  have above_sized : heap.Same sized (address + 24 + size.toNat) (2 ^ 32) := by
    simp only [sized, place]
    exact setSize_same _ (by omega) (by omega) (by omega)
  have above_freed : sized.Same freed (address + 24 + size.toNat) (2 ^ 32) := by
    simp only [freed, place]
    exact setUsed_same _ (by omega) (by omega) (by omega)
  have above_linked : freed.Same linked (address + 24 + size.toNat) (2 ^ 32) := by
    simp only [linked, place]
    exact setNext_same _ (by omega) (by omega) (by omega)
  refine ⟨?_, ?_, ?_⟩
  · have written := header_write heap (by omega : address + 12 + size.toNat + 12 ≤ 2 ^ 32)
      (old - size.toNat - 12) false (link heap.stop (address + 12 + old))
    simp only [linked]
    rw [old_next]
    simp only [freed, sized, place, amount]
    exact written
  · intro byte lower upper
    rw [below_linked byte lower upper, below_freed byte lower upper, below_sized byte lower upper]
  · intro byte lower upper
    rw [above_linked byte lower upper, above_freed byte lower upper, above_sized byte lower upper]

omit size in
/-- The block in front gets its new size and successor and is marked. -/
theorem claim_front {next : Nat} (header : Header heap.memory address ⟨old, false⟩ next)
    (bounded : address + 12 ≤ 2 ^ 32) (size successor : Nat) :
    let done := ((heap.setSize (BitVec.ofNat 32 address) (BitVec.ofNat 32 size)).setNext (BitVec.ofNat 32 address)
      (BitVec.ofNat 32 successor)).setUsed (BitVec.ofNat 32 address) 1
    Header done.memory address ⟨size, true⟩ successor ∧
      ∀ first last, last ≤ 2 ^ 32 → last ≤ address ∨ address + 12 ≤ first → heap.Same done first last := by
  intro done
  constructor
  · exact header_setUsed (header_setNext (header_setSize header bounded size) bounded successor) bounded true
  · intro first last inside apart byte lower upper
    have sized := @setSize_same heap address first last (BitVec.ofNat 32 size) bounded inside (by omega)
    have linked (before : Heap) := @setNext_same before address first last (BitVec.ofNat 32 successor) bounded inside
      (by omega)
    have marked (before : Heap) := @setUsed_same before address first last 1 bounded inside (by omega)
    rw [marked _ byte lower upper, linked _ byte lower upper, sized byte lower upper]

/-- `take` on a block that is large enough to be split. -/
theorem take_split (walk : Walk heap address (⟨old, false⟩ :: back)) (split : size.toNat + 28 ≤ old) :
    Walk (heap.take (BitVec.ofNat 32 address) size).2 address
      (⟨size.toNat, true⟩ :: ⟨old - size.toNat - 12, false⟩ :: back) ∧
    heap.Same (heap.take (BitVec.ofNat 32 address) size).2 0 address ∧
    heap.Same (heap.take (BitVec.ofNat 32 address) size).2 (address + 12 + old) (2 ^ 32) := by
  have room := walk.room
  have bounded := walk.bounded
  simp only at room
  obtain ⟨behind, below, above⟩ := split_behind walk split
  simp only [take, splitBlock, (splits_iff walk (by omega)).mpr split, ↓reduceIte]
  generalize stored : (((heap.setSize _ _).setUsed _ _).setNext _ _) = written at behind below above ⊢
  have frame : Frame heap written := by
    rw [← stored]
    exact ⟨rfl, rfl⟩
  have place : BitVec.ofNat 32 address + 12 + size = BitVec.ofNat 32 (address + 12 + size.toNat) := by
    rw [BitVec.ofNat_add, BitVec.ofNat_add, BitVec.ofNat_toNat, BitVec.setWidth_eq]
    rfl
  have amount : BitVec.ofNat 32 size.toNat = size := by simp
  have front : Header written.memory address ⟨old, false⟩ (link heap.stop (address + 12 + old)) :=
    walk.header.congr fun byte lower upper => below byte (by omega) (by omega)
  obtain ⟨header, apart⟩ := claim_front front (by omega) size.toNat (address + 12 + size.toNat)
  rw [amount] at header apart
  rw [place]
  generalize marked : ((written.setSize _ _).setNext _ _).setUsed _ _ = done at header apart ⊢
  have counted : Frame heap { done with heapUsed := done.heapUsed + (size + 12) } := by
    rw [← marked]
    exact ⟨frame.heapStart, frame.heapSize⟩
  have follower : link heap.stop (address + 12 + size.toNat) = address + 12 + size.toNat := if_neg (by omega)
  have ends : address + 12 + size.toNat + 12 + (old - size.toNat - 12) = address + 12 + old := by omega
  refine ⟨?_, ?_, ?_⟩
  · apply walk.rewrite counted
    refine ⟨?_, ?_, ?_⟩
    · rw [follower]
      exact header
    · rw [ends]
      exact behind.congr (apart _ _ (by omega) (by omega))
    · rw [ends]
      apply walk.span.2.congr
      intro byte lower upper
      simp only at lower
      rw [apart (address + 12) heap.stop (by omega) (by omega) byte (by omega) upper, above byte (by omega) (by omega)]
  · intro byte lower upper
    rw [apart 0 address (by omega) (by omega) byte lower upper, below byte lower (by omega)]
  · intro byte lower upper
    rw [apart (address + 12) (2 ^ 32) (by omega) (by omega) byte (by omega) upper, above byte (by omega) upper]

/-- What `kmalloc` makes of the block it found. -/
theorem take_spec (walk : Walk heap address (⟨old, false⟩ :: back)) (fits : size.toNat + 28 < 2 ^ 32) :
    (heap.take (BitVec.ofNat 32 address) size).1 = BitVec.ofNat 32 (address + 12) ∧
    Frame heap (heap.take (BitVec.ofNat 32 address) size).2 ∧
    Walk (heap.take (BitVec.ofNat 32 address) size).2 address (carve size.toNat old ++ back) ∧
    heap.Same (heap.take (BitVec.ofNat 32 address) size).2 0 address ∧
    heap.Same (heap.take (BitVec.ofNat 32 address) size).2 (address + 12 + old) (2 ^ 32) := by
  have frame : Frame heap (heap.take (BitVec.ofNat 32 address) size).2 := by
    simp only [take, splitBlock]
    split <;> exact ⟨rfl, rfl⟩
  refine ⟨ofNat_offset address 12, frame, ?_⟩
  by_cases split : size.toNat + 28 ≤ old
  · rw [carve, if_pos split]
    exact take_split walk split
  · have room := walk.room
    have bounded := walk.bounded
    simp only at room
    have whole : heap.splitBlock (BitVec.ofNat 32 address) size = heap := by
      rw [splitBlock, if_neg fun condition => split ((splits_iff walk fits).mp condition)]
    rw [carve, if_neg split]
    rw [take, whole] at frame ⊢
    refine ⟨?_, ?_, ?_⟩
    · apply walk.rewrite frame
      refine ⟨header_setUsed walk.header (by omega) true, walk.span.2.congr ?_⟩
      exact setUsed_same _ (by omega) (by omega) (by omega)
    · exact setUsed_same _ (by omega) (by omega) (by omega)
    · exact setUsed_same _ (by omega) (by omega) (by omega)

end Split

/-- The list after an allocation of `size` bytes that succeeds at `p`. -/
structure Allocated (heap : Heap) (blocks : List Block) (size : Nat) (p : Word) (other : Heap)
    (front : List Block) (old : Nat) (back : List Block) : Prop where
  found : blocks = front ++ ⟨old, false⟩ :: back
  enough : size ≤ old
  pointer : p = BitVec.ofNat 32 (heap.heapStart.toNat + extent front + 12)
  holds : Holds other (front ++ (carve size old ++ back))

/-- No sum in `split_block` wraps for a size that the heap can hold. -/
def Splittable (heap : Heap) (size : Nat) : Prop := size + 12 ≤ heap.heapSize.toNat → size + 28 < 2 ^ 32

theorem take_allocates {heap : Heap} {blocks front back : List Block} {size : Word} {old : Nat}
    (holds : Holds heap blocks) (small : heap.Splittable size.toNat)
    (found : blocks = front ++ ⟨old, false⟩ :: back) (enough : size.toNat ≤ old) :
    Frame heap (heap.take (BitVec.ofNat 32 (heap.heapStart.toNat + extent front)) size).2 ∧
    Allocated heap blocks size.toNat (heap.take (BitVec.ofNat 32 (heap.heapStart.toNat + extent front)) size).1
      (heap.take (BitVec.ofNat 32 (heap.heapStart.toNat + extent front)) size).2 front old back := by
  have whole := holds.extent_eq
  rw [found] at holds whole
  rw [extent, Block.extent_append, Block.extent_cons] at whole
  simp only at whole
  have fits := small (by omega)
  obtain ⟨pointer, frame, walk, below, _⟩ := @take_spec heap _ old back size holds.from_here fits
  exact ⟨frame, found, enough, pointer, holds.replace frame walk (by simp [carve_ne_nil]) below⟩

/-- No byte outside the block changes. -/
theorem take_keeps {heap : Heap} {front back : List Block} {size : Word} {old place : Nat}
    (holds : Holds heap (front ++ ⟨old, false⟩ :: back)) (fits : size.toNat + 28 < 2 ^ 32) (inside : place < 2 ^ 32)
    (apart : place < heap.heapStart.toNat + extent front ∨ heap.heapStart.toNat + extent front + 12 + old ≤ place) :
    (heap.take (BitVec.ofNat 32 (heap.heapStart.toNat + extent front)) size).2.memory (BitVec.ofNat 32 place) =
      heap.memory (BitVec.ofNat 32 place) := by
  obtain ⟨_, _, _, below, above⟩ := take_spec holds.from_here fits
  rcases apart with before | behind
  · exact below place (Nat.zero_le _) before
  · exact above place behind inside

theorem round_toNat (size : Word) : ((size + 3) &&& ~~~3).toNat = (size + 3).toNat / 4 * 4 :=
  toNat_and_not_mask (size + 3) 2

theorem kmallocRounded_found {heap : Heap} {size block : Word} (found : heap.findBestFit size = some block)
    (nonnull : block ≠ 0#32) : heap.kmallocRounded size = some (heap.take block size) := by
  simp [kmallocRounded, found, nonnull]

theorem take_heapUsed (heap : Heap) (block size : Word) :
    (heap.take block size).2.heapUsed = heap.heapUsed + (size + 12) := by
  rw [take, splitBlock]
  split <;> rfl

/-- The bytes that `kmalloc` looks for. -/
def rounded (size : Word) : Nat := (size + 3).toNat / 4 * 4

/-- What an allocation of `size` bytes does: nothing fits, or the best fit is
handed out and `size` bytes with a header are counted. -/
inductive Outcome (heap : Heap) (blocks : List Block) (size : Nat) (p : Word) (other : Heap) : Prop
  | nothing : p = 0 → Holds other blocks → other.heapUsed = heap.heapUsed → (∀ block ∈ blocks, ¬ block.Fits size) →
    Outcome heap blocks size p other
  | block (front : List Block) (old : Nat) (back : List Block) : Block.BestFit blocks size front old back →
    Allocated heap blocks size p other front old back →
    other.heapUsed = heap.heapUsed + (BitVec.ofNat 32 size + 12) → Outcome heap blocks size p other

theorem take_outcome {heap : Heap} {blocks front back : List Block} {size : Word} {old : Nat}
    (holds : Holds heap blocks) (small : heap.Splittable size.toNat)
    (best : Block.BestFit blocks size.toNat front old back) :
    Frame heap (heap.take (BitVec.ofNat 32 (heap.heapStart.toNat + extent front)) size).2 ∧
    Outcome heap blocks size.toNat (heap.take (BitVec.ofNat 32 (heap.heapStart.toNat + extent front)) size).1
      (heap.take (BitVec.ofNat 32 (heap.heapStart.toNat + extent front)) size).2 := by
  obtain ⟨frame, allocated⟩ := take_allocates holds small best.found best.enough
  refine ⟨frame, .block front old back best allocated ?_⟩
  rw [take_heapUsed, BitVec.ofNat_toNat, BitVec.setWidth_eq]

/-- The second search never helps, as no two free blocks are neighbours. -/
theorem kmallocRounded_eq {heap : Heap} {blocks : List Block} (holds : Holds heap blocks)
    (separated : Block.Separated blocks) (size : Word) :
    (∀ block ∈ blocks, ¬ block.Fits size.toNat) ∧ heap.kmallocRounded size = some (0, heap) ∨
      ∃ front old back, Block.BestFit blocks size.toNat front old back ∧
        heap.kmallocRounded size = some (heap.take (BitVec.ofNat 32 (heap.heapStart.toNat + extent front)) size) := by
  obtain ⟨found, search, spec⟩ := findBestFit_spec holds size
  rcases spec with ⟨null, none⟩ | ⟨front, old, back, best, place⟩
  · left
    refine ⟨none, ?_⟩
    simp [kmallocRounded, search, null, mergeFreeBlocks_separated holds separated]
  · right
    refine ⟨front, old, back, best, ?_⟩
    have nonnull : found ≠ 0#32 := by
      rw [place]
      rw [best.found] at holds
      exact holds.from_here.ne_zero
    rw [kmallocRounded_found search nonnull, place]

theorem kmallocRounded_spec {heap : Heap} {blocks : List Block} (holds : Holds heap blocks)
    (separated : Block.Separated blocks) (size : Word)
    (small : ∀ block ∈ blocks, block.Fits size.toNat → heap.Splittable size.toNat) :
    ∃ p other, heap.kmallocRounded size = some (p, other) ∧ Frame heap other ∧ Outcome heap blocks size.toNat p other := by
  rcases kmallocRounded_eq holds separated size with ⟨none, result⟩ | ⟨front, old, back, best, result⟩
  · exact ⟨0, heap, result, ⟨rfl, rfl⟩, .nothing rfl holds rfl none⟩
  · have fits := small ⟨old, false⟩ (by rw [best.found]; simp) ⟨rfl, best.enough⟩
    exact ⟨_, _, result, take_outcome holds fits best⟩

/-- `kmalloc` returns; it hands out the best fit, or nothing fits. -/
theorem kmalloc_outcome {heap : Heap} {blocks : List Block} (holds : Holds heap blocks)
    (separated : Block.Separated blocks) {size : Word} (positive : size ≠ 0)
    (small : ∀ block ∈ blocks, block.Fits (rounded size) → heap.Splittable (rounded size)) :
    ∃ p other, heap.kmalloc size = some (p, other) ∧ Frame heap other ∧ Outcome heap blocks (rounded size) p other := by
  rw [rounded, ← round_toNat] at small ⊢
  rw [kmalloc, if_neg positive]
  exact kmallocRounded_spec holds separated _ small

/-- `kmalloc` returns; it hands out a block or leaves the list as it is. -/
theorem kmalloc_spec {heap : Heap} {blocks : List Block} (holds : Holds heap blocks)
    (separated : Block.Separated blocks) (size : Word) (small : heap.Splittable ((size + 3).toNat / 4 * 4)) :
    ∃ p other, heap.kmalloc size = some (p, other) ∧ Frame heap other ∧
      (p = 0 ∧ Holds other blocks ∨ ∃ front old back,
        Allocated heap blocks ((size + 3).toNat / 4 * 4) p other front old back) := by
  by_cases zero : size = 0
  · exact ⟨0, heap, if_pos zero, ⟨rfl, rfl⟩, .inl ⟨rfl, holds⟩⟩
  · obtain ⟨p, other, result, frame, outcome⟩ := kmalloc_outcome holds separated zero fun _ _ _ => small
    refine ⟨p, other, result, frame, ?_⟩
    cases outcome with
    | nothing null again _ _ => exact .inl ⟨null, again⟩
    | block front old back _ allocated _ => exact .inr ⟨front, old, back, allocated⟩

section Free

variable {heap : Heap} {front back : List Block} {size : Nat}

/-- The payload of a block starts inside the heap. -/
theorem Holds.payload_lt {block : Block} (holds : Holds heap (front ++ block :: back))
    (ends : Block.Ends (front ++ block :: back)) : heap.heapStart.toNat + extent front + 12 < heap.stop := by
  have room := holds.from_here.room
  cases back with
  | nil =>
    have positive := ends block (by simp)
    omega
  | cons follower back =>
    simp only [extent, Block.extent_cons] at room ⊢
    omega

/-- The probe for the mark of an aligned allocation reads the `used` byte of
the block, which is 1 where the mark has 0xED. -/
theorem kfreeBlock_spec (holds : Holds heap (front ++ ⟨size, true⟩ :: back))
    (ends : Block.Ends (front ++ ⟨size, true⟩ :: back)) :
    heap.kfreeBlock (BitVec.ofNat 32 (heap.heapStart.toNat + extent front + 12)) =
      some (BitVec.ofNat 32 (heap.heapStart.toNat + extent front)) := by
  have before := holds.payload_lt ends
  have bounded := holds.walk.bounded
  have header := holds.from_here.header
  have range : heap.stop = heap.heapStart.toNat + heap.heapSize.toNat := rfl
  have above : heap.heapStart.toNat ≤ heap.heapStart.toNat + extent front := by omega
  generalize heap.heapStart.toNat + extent front = address at before header above ⊢
  have nonnull : BitVec.ofNat 32 (address + 12) ≠ 0 := ofNat_ne_zero (by omega) (by omega)
  have inside : ¬ (BitVec.ofNat 32 (address + 12) < heap.heapStart ∨ BitVec.ofNat 32 (address + 12) ≥ heap.heapEnd) := by
    have outside := @outside_eq heap (address + 12) (by omega) (by omega) bounded
    simpa [Heap.outside, not_or] using outside
  have probe : BitVec.ofNat 32 (address + 12) - 4 - 4 = BitVec.ofNat 32 (address + 4) := by bv_omega
  have unmarked : loadWord heap.memory (BitVec.ofNat 32 (address + 12) - 4 - 4) ≠ alignedMagic := by
    intro mark
    have low := setWidth_loadWord heap.memory (BitVec.ofNat 32 (address + 4))
    rw [← probe, mark, probe, header.used] at low
    have differ : BitVec.setWidth 8 alignedMagic ≠ 1 := by decide
    exact differ low
  have place : BitVec.ofNat 32 (address + 12) - 12 = BitVec.ofNat 32 address := by bv_omega
  rw [kfreeBlock, if_neg nonnull, if_neg inside, if_neg unmarked, place]

/-- `kfree` of a pointer that it traces to a used block returns with that block
free and joined with its free neighbours; no byte but those of headers changes. -/
theorem kfree_of_target {p : Word} (holds : Holds heap (front ++ ⟨size, true⟩ :: back))
    (target : heap.kfreeBlock p = some (BitVec.ofNat 32 (heap.heapStart.toNat + extent front))) :
    ∃ other, heap.kfree p = some other ∧
      Frame heap other ∧ other.heapUsed = heap.heapUsed - (BitVec.ofNat 32 size + 12) ∧
      Holds other (Block.coalesce 12 (front ++ ⟨size, false⟩ :: back)) ∧
      ∀ place < 2 ^ 32, Block.OffHeaders 12 heap.heapStart.toNat (front ++ ⟨size, true⟩ :: back) place →
        other.memory (BitVec.ofNat 32 place) = heap.memory (BitVec.ofNat 32 place) := by
  have walk := holds.from_here
  have room := walk.room
  have bounded := walk.bounded
  simp only at room
  have inUse : heap.used (BitVec.ofNat 32 (heap.heapStart.toNat + extent front)) ≠ 0 := by
    intro unused
    have free := (used_eq_zero walk.header).mp unused
    cases free
  generalize cleared : Heap.setUsed { heap with heapUsed := heap.heapUsed -
    (heap.size (BitVec.ofNat 32 (heap.heapStart.toNat + extent front)) + 12) }
    (BitVec.ofNat 32 (heap.heapStart.toNat + extent front)) 0 = freed
  have frame : Frame heap freed := by
    rw [← cleared]
    exact ⟨rfl, rfl⟩
  have kept (first last : Nat) (inside : last ≤ 2 ^ 32)
      (apart : last ≤ heap.heapStart.toNat + extent front + 4 ∨ heap.heapStart.toNat + extent front + 5 ≤ first) :
      heap.Same freed first last := by
    rw [← cleared]
    exact setUsed_same _ (by omega) inside apart
  have freed_holds : Holds freed (front ++ ⟨size, false⟩ :: back) := by
    have header := header_setUsed walk.header (by omega) false
    refine holds.replace frame (walk.rewrite frame ⟨?_, walk.span.2.congr ?_⟩) (by simp) ?_
    · rw [← cleared]
      exact header
    · exact kept _ _ (by omega) (by simp only; omega)
    · exact kept _ _ (by omega) (by omega)
  have counter : freed.heapUsed = heap.heapUsed - (BitVec.ofNat 32 size + 12) := by
    rw [← cleared, size_eq walk.header]
    rfl
  obtain ⟨other, merge, merge_frame, merge_counter, merged_holds⟩ := mergeFreeBlocks_spec freed_holds
  refine ⟨other, ?_, frame.trans merge_frame, merge_counter.trans counter, merged_holds, ?_⟩
  · rw [kfree, target]
    simp only [inUse, ne_eq, not_false_eq_true, ↓reduceIte, cleared]
    rw [merge]
    exact heapValidate_separated merged_holds (Block.separated_coalesce _)
  · intro place small off
    have header := off front _ back rfl
    have freedOff : Block.OffHeaders 12 freed.heapStart.toNat (front ++ ⟨size, false⟩ :: back) place := by
      rw [frame.heapStart]
      exact off.of_sizes (by simp)
    simp only [extent] at kept
    rw [mergeFreeBlocks_same freed_holds merge freedOff small,
      kept place (place + 1) (by omega) (by omega) place (Nat.le_refl _) (Nat.lt_succ_self _)]

theorem kfree_spec (holds : Holds heap (front ++ ⟨size, true⟩ :: back))
    (ends : Block.Ends (front ++ ⟨size, true⟩ :: back)) :
    ∃ other, heap.kfree (BitVec.ofNat 32 (heap.heapStart.toNat + extent front + 12)) = some other ∧
      Frame heap other ∧ other.heapUsed = heap.heapUsed - (BitVec.ofNat 32 size + 12) ∧
      Holds other (Block.coalesce 12 (front ++ ⟨size, false⟩ :: back)) := by
  obtain ⟨other, result, frame, counter, freed, _⟩ := kfree_of_target holds (kfreeBlock_spec holds ends)
  exact ⟨other, result, frame, counter, freed⟩

end Free

end MexOS.Mm.Heap
