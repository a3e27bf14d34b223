import MexOS.Mm.HeapChain

/-! The three loops over the block list: each comes to its end and does what
its counterpart on lists of blocks does. -/

namespace MexOS.Mm

open MexOS.Machine

namespace Heap

def stop (heap : Heap) : Nat := heap.heapStart.toNat + heap.heapSize.toNat

/-- From `address` to the end of the heap the memory holds `blocks`. -/
structure Walk (heap : Heap) (address : Nat) (blocks : List Block) : Prop where
  nonnull : 0 < heap.heapStart.toNat
  bounded : heap.stop < 2 ^ 32
  lower : heap.heapStart.toNat ≤ address
  span : Span heap.memory heap.stop address blocks heap.stop

namespace Walk

variable {heap : Heap} {address : Nat} {block : Block} {rest blocks : List Block}

theorem reach (walk : Walk heap address blocks) : heap.stop = address + extent blocks := walk.span.last_eq

theorem header (walk : Walk heap address (block :: rest)) :
    Header heap.memory address block (link heap.stop (address + 12 + block.size)) := walk.span.1

theorem tail (walk : Walk heap address (block :: rest)) : Walk heap (address + 12 + block.size) rest := by
  have lower := walk.lower
  exact ⟨walk.nonnull, walk.bounded, by omega, walk.span.2⟩

theorem room (walk : Walk heap address (block :: rest)) :
    address + 12 + block.size + extent rest = heap.stop := by
  rw [walk.reach, extent, extent, Block.extent_cons]
  omega

theorem ne_zero (walk : Walk heap address (block :: rest)) : BitVec.ofNat 32 address ≠ 0 := by
  have room := walk.room
  have nonnull := walk.nonnull
  have lower := walk.lower
  have bounded := walk.bounded
  exact ofNat_ne_zero (by omega) (by omega)

theorem inside (walk : Walk heap address (block :: rest)) : heap.outside (BitVec.ofNat 32 address) = false := by
  have room := walk.room
  exact outside_eq walk.lower (by rw [stop] at room; omega) walk.bounded

theorem next_last (walk : Walk heap address [block]) : heap.next (BitVec.ofNat 32 address) = 0 := by
  have room := walk.room
  rw [extent, Block.extent_nil] at room
  rw [next_eq walk.header, link, if_pos (by omega)]
  rfl

theorem next_cons {follower : Block} (walk : Walk heap address (block :: follower :: rest)) :
    heap.next (BitVec.ofNat 32 address) = BitVec.ofNat 32 (address + 12 + block.size) := by
  have room := walk.tail.room
  rw [next_eq walk.header, link, if_neg (by omega)]

theorem next_or_null (walk : Walk heap address (block :: rest)) : heap.next (BitVec.ofNat 32 address) =
    BitVec.ofNat 32 (if rest = [] then 0 else address + 12 + block.size) := by
  cases rest with
  | nil => exact walk.next_last
  | cons follower rest =>
    rw [walk.next_cons]
    simp

/-- A new list from the same address to the same end. -/
theorem rewrite {other : Heap} {new : List Block} (walk : Walk heap address blocks) (frame : Frame heap other)
    (span : Span other.memory heap.stop address new heap.stop) : Walk other address new := by
  have stops : other.stop = heap.stop := by rw [stop, frame.heapStart, frame.heapSize, stop]
  refine ⟨?_, ?_, ?_, ?_⟩
  · rw [frame.heapStart]
    exact walk.nonnull
  · rw [stops]
    exact walk.bounded
  · rw [frame.heapStart]
    exact walk.lower
  · rw [stops]
    exact span

theorem size_toNat (walk : Walk heap address (block :: rest)) :
    (heap.size (BitVec.ofNat 32 address)).toNat = block.size := by
  have room := walk.room
  have bounded := walk.bounded
  rw [size_eq walk.header, BitVec.toNat_ofNat]
  omega

end Walk

/-- What one call of `merge_free_blocks` keeps. -/
structure Merged (heap other : Heap) (address : Nat) (blocks : List Block) : Prop where
  frame : Frame heap other
  counter : other.heapUsed = heap.heapUsed
  walk : Walk other address (Block.coalesce 12 blocks)
  below : heap.Same other 0 address

/-- The turn that joins a block with its free neighbour. -/
theorem Walk.join {heap : Heap} {address : Nat} {left right : Block} {rest : List Block}
    (walk : Walk heap address (left :: right :: rest)) (free : left.used = false) :
    let joined := heap.setSize (BitVec.ofNat 32 address) (BitVec.ofNat 32 (left.size + 12 + right.size))
    let relinked := joined.setNext (BitVec.ofNat 32 address) (joined.next (joined.next (BitVec.ofNat 32 address)))
    Walk relinked address (⟨left.size + 12 + right.size, false⟩ :: rest) ∧ Frame heap relinked ∧
      heap.Same relinked 0 address := by
  intro joined relinked
  have room := walk.tail.room
  have bounded := walk.bounded
  have follower := walk.tail
  have behind : heap.Same joined (address + 12) heap.stop :=
    setSize_same _ (by omega) (by omega) (by omega)
  have header : Header joined.memory address ⟨left.size + 12 + right.size, left.used⟩ _ :=
    header_setSize walk.header (by omega) _
  have next_left : joined.next (BitVec.ofNat 32 address) = BitVec.ofNat 32 (address + 12 + left.size) := by
    rw [next_eq header, link, if_neg (by omega)]
  have right_header : Header joined.memory (address + 12 + left.size) right
      (link heap.stop (address + 12 + left.size + 12 + right.size)) :=
    follower.header.congr fun place lower upper => behind place (by omega) (by omega)
  have next_right : joined.next (joined.next (BitVec.ofNat 32 address)) =
      BitVec.ofNat 32 (link heap.stop (address + 12 + (left.size + 12 + right.size))) := by
    have place : address + 12 + left.size + 12 + right.size = address + 12 + (left.size + 12 + right.size) := by omega
    rw [next_left, next_eq right_header, place]
  have relink : relinked = joined.setNext (BitVec.ofNat 32 address)
      (BitVec.ofNat 32 (link heap.stop (address + 12 + (left.size + 12 + right.size)))) := by
    rw [← next_right]
  have behind_again : joined.Same relinked (address + 12) heap.stop := by
    rw [relink]
    exact setNext_same _ (by omega) (by omega) (by omega)
  have below_joined : heap.Same joined 0 address := setSize_same _ (by omega) (by omega) (by omega)
  have below_again : joined.Same relinked 0 address := by
    rw [relink]
    exact setNext_same _ (by omega) (by omega) (by omega)
  refine ⟨⟨walk.nonnull, walk.bounded, walk.lower, ?_, ?_⟩, ⟨rfl, rfl⟩, ?_⟩
  · rw [relink, ← free]
    exact header_setNext header (by omega) _
  · have place : address + 12 + (left.size + 12 + right.size) = address + 12 + left.size + 12 + right.size := by omega
    rw [place]
    apply follower.tail.span.congr
    intro byte lower upper
    rw [behind_again byte (by omega) upper, behind byte (by omega) upper]
  · intro byte lower upper
    rw [below_again byte lower upper, below_joined byte lower upper]

/-- The new size is computed without overflow and stays below the heap size. -/
theorem Walk.newSize {heap : Heap} {address : Nat} {left right : Block} {rest : List Block}
    (walk : Walk heap address (left :: right :: rest)) :
    heap.size (BitVec.ofNat 32 address) + 12 + heap.size (heap.next (BitVec.ofNat 32 address)) =
      BitVec.ofNat 32 (left.size + 12 + right.size) ∧
    ¬ (BitVec.ofNat 32 (left.size + 12 + right.size) < heap.size (BitVec.ofNat 32 address) ∨
      BitVec.ofNat 32 (left.size + 12 + right.size) ≥ heap.heapSize) := by
  have room := walk.tail.room
  have bounded := walk.bounded
  have lower := walk.lower
  have range : heap.stop = heap.heapStart.toNat + heap.heapSize.toNat := rfl
  have small : (BitVec.ofNat 32 (left.size + 12 + right.size)).toNat = left.size + 12 + right.size := by
    rw [BitVec.toNat_ofNat]
    omega
  constructor
  · rw [walk.next_cons, size_eq walk.header, size_eq walk.tail.header, BitVec.ofNat_add, BitVec.ofNat_add]
    rfl
  · rw [BitVec.lt_def, ge_iff_le, BitVec.le_def, small, walk.size_toNat]
    omega

section Turns

variable {heap : Heap} {address turns : Nat} {left right : Block} {rest : List Block}

theorem mergeLoop_last (walk : Walk heap address [left]) : mergeLoop (turns + 1) heap (BitVec.ofNat 32 address) = some heap := by
  rw [mergeLoop, if_pos (.inr walk.next_last)]

/-- A turn at a free block with a free neighbour. -/
theorem mergeLoop_join (walk : Walk heap address (left :: right :: rest)) (free : left.used = false ∧ right.used = false) :
    let joined := heap.setSize (BitVec.ofNat 32 address) (BitVec.ofNat 32 (left.size + 12 + right.size))
    mergeLoop (turns + 1) heap (BitVec.ofNat 32 address) = mergeLoop turns
      (joined.setNext (BitVec.ofNat 32 address) (joined.next (joined.next (BitVec.ofNat 32 address)))) (BitVec.ofNat 32 address) := by
  obtain ⟨sum, fits⟩ := walk.newSize
  have follows : heap.next (BitVec.ofNat 32 address) ≠ 0 := by
    rw [walk.next_cons]
    exact walk.tail.ne_zero
  have unused : heap.used (BitVec.ofNat 32 address) = 0 ∧ heap.used (heap.next (BitVec.ofNat 32 address)) = 0 := by
    rw [walk.next_cons, used_eq_zero walk.header, used_eq_zero walk.tail.header]
    exact free
  have apart : heap.outside (heap.next (BitVec.ofNat 32 address)) = false := by
    rw [walk.next_cons]
    exact walk.tail.inside
  rw [mergeLoop, if_neg (not_or.mpr ⟨walk.ne_zero, follows⟩), walk.inside, apart]
  simp only [Bool.false_eq_true, ↓reduceIte, unused, and_self, sum, fits]

/-- A turn at a block that is not joined with its neighbour. -/
theorem mergeLoop_pass (walk : Walk heap address (left :: right :: rest)) (busy : ¬ (left.used = false ∧ right.used = false)) :
    mergeLoop (turns + 1) heap (BitVec.ofNat 32 address) =
      mergeLoop turns heap (BitVec.ofNat 32 (address + 12 + left.size)) := by
  have follows : heap.next (BitVec.ofNat 32 address) ≠ 0 := by
    rw [walk.next_cons]
    exact walk.tail.ne_zero
  have used : ¬ (heap.used (BitVec.ofNat 32 address) = 0 ∧ heap.used (heap.next (BitVec.ofNat 32 address)) = 0) := by
    rw [walk.next_cons, used_eq_zero walk.header, used_eq_zero walk.tail.header]
    exact busy
  have apart : heap.outside (heap.next (BitVec.ofNat 32 address)) = false := by
    rw [walk.next_cons]
    exact walk.tail.inside
  rw [mergeLoop, if_neg (not_or.mpr ⟨walk.ne_zero, follows⟩), walk.inside, apart]
  simp only [Bool.false_eq_true, ↓reduceIte, used]
  rw [walk.next_cons]

end Turns

theorem mergeLoop_spec {heap : Heap} {address turns : Nat} {blocks : List Block} (walk : Walk heap address blocks)
    (nonempty : blocks ≠ []) (enough : blocks.length ≤ turns) :
    ∃ other, mergeLoop turns heap (BitVec.ofNat 32 address) = some other ∧ Merged heap other address blocks := by
  fun_induction Block.coalesce 12 blocks generalizing heap address turns with
  | case1 => exact absurd rfl nonempty
  | case2 block =>
    cases turns with
    | zero => simp at enough
    | succ turns =>
      refine ⟨heap, mergeLoop_last walk, ⟨rfl, rfl⟩, rfl, ?_, fun _ _ _ => rfl⟩
      rw [Block.coalesce]
      exact walk
  | case3 left right rest free ih =>
    cases turns with
    | zero => simp at enough
    | succ turns =>
      obtain ⟨joined, frame, below⟩ := walk.join free.1
      obtain ⟨other, result, merged⟩ := @ih _ _ turns joined (by simp) (by simpa using enough)
      refine ⟨other, (mergeLoop_join walk free).trans result, frame.trans merged.frame, merged.counter, ?_, ?_⟩
      · rw [Block.coalesce, if_pos free]
        exact merged.walk
      · intro byte lower upper
        rw [merged.below byte lower upper, below byte lower upper]
  | case4 left right rest busy ih =>
    cases turns with
    | zero => simp at enough
    | succ turns =>
      obtain ⟨other, result, merged⟩ := @ih _ _ turns walk.tail (by simp) (by simpa using enough)
      have stops : other.stop = heap.stop := by rw [stop, merged.frame.heapStart, merged.frame.heapSize, stop]
      have header : Header other.memory address left (link heap.stop (address + 12 + left.size)) :=
        walk.header.congr fun byte lower upper => merged.below byte (by omega) (by omega)
      refine ⟨other, (mergeLoop_pass walk busy).trans result, merged.frame, merged.counter, ?_, ?_⟩
      · rw [Block.coalesce, if_neg busy]
        exact walk.rewrite merged.frame ⟨header, stops ▸ merged.walk.span⟩
      · intro byte lower upper
        exact merged.below byte lower (by omega)

/-- Nothing is joined where no two neighbours are free. -/
theorem mergeLoop_separated {heap : Heap} {address turns : Nat} {blocks : List Block} (walk : Walk heap address blocks)
    (nonempty : blocks ≠ []) (separated : Block.Separated blocks) (enough : blocks.length ≤ turns) :
    mergeLoop turns heap (BitVec.ofNat 32 address) = some heap := by
  induction blocks generalizing address turns with
  | nil => exact absurd rfl nonempty
  | cons left rest ih =>
    cases turns with
    | zero => simp at enough
    | succ turns =>
      cases rest with
      | nil => exact mergeLoop_last walk
      | cons right rest =>
        obtain ⟨apart, later⟩ := List.isChain_cons_cons.mp separated
        have busy : ¬ (left.used = false ∧ right.used = false) := by
          rintro ⟨leftFree, rightFree⟩
          simp [leftFree, rightFree] at apart
        rw [mergeLoop_pass walk busy]
        exact ih walk.tail (by simp) later (by simpa using enough)

/-- The merge writes to headers only. -/
theorem mergeLoop_same {heap other : Heap} {address turns place : Nat} {blocks : List Block} (walk : Walk heap address blocks)
    (nonempty : blocks ≠ []) (result : mergeLoop turns heap (BitVec.ofNat 32 address) = some other)
    (off : Block.OffHeaders 12 address blocks place) (small : place < 2 ^ 32) :
    other.memory (BitVec.ofNat 32 place) = heap.memory (BitVec.ofNat 32 place) := by
  fun_induction Block.coalesce 12 blocks generalizing heap address turns with
  | case1 => exact absurd rfl nonempty
  | case2 block =>
    cases turns with
    | zero => cases result
    | succ turns =>
      rw [mergeLoop_last walk, Option.some.injEq] at result
      rw [result]
  | case3 left right rest free ih =>
    cases turns with
    | zero => cases result
    | succ turns =>
      have room := walk.room
      have bounded := walk.bounded
      have apart := off.head
      have joined : heap.Same (heap.setSize (BitVec.ofNat 32 address) (BitVec.ofNat 32 (left.size + 12 + right.size))) place
          (place + 1) := setSize_same _ (by omega) (by omega) (by omega)
      have relinked (before : Heap) (value : Word) : before.Same (before.setNext (BitVec.ofNat 32 address) value) place (place + 1) :=
        setNext_same _ (by omega) (by omega) (by omega)
      rw [mergeLoop_join walk free] at result
      rw [ih (walk.join free.1).1 (by simp) result (off.join false), relinked _ _ place (Nat.le_refl _) (Nat.lt_succ_self _),
        joined place (Nat.le_refl _) (Nat.lt_succ_self _)]
  | case4 left right rest busy ih =>
    cases turns with
    | zero => cases result
    | succ turns =>
      rw [mergeLoop_pass walk busy] at result
      exact ih walk.tail (by simp) result off.tail

/-- What a search of the blocks from `address` on answers: the best block so far, if
none of them fits better, or the best fit among them. -/
def Found (address : Nat) (blocks : List Block) (size : Nat) (best bestDiff result : Word) : Prop :=
  result = best ∧ (∀ block ∈ blocks, block.Fits size → bestDiff.toNat ≤ block.size - size) ∨
    ∃ front old back, Block.BestFit blocks size front old back ∧ old - size < bestDiff.toNat ∧
      result = BitVec.ofNat 32 (address + extent front)

namespace Found

variable {address size : Nat} {block : Block} {rest : List Block} {best bestDiff diff result : Word}

theorem shift (front : List Block) : address + 12 + block.size + extent front = address + extent (block :: front) := by
  rw [extent, extent, Block.extent_cons]
  omega

/-- A block that fits no better is passed by. -/
theorem passed (found : Found (address + 12 + block.size) rest size best bestDiff result)
    (worse : block.Fits size → bestDiff.toNat ≤ block.size - size) :
    Found address (block :: rest) size best bestDiff result := by
  rcases found with ⟨same, none⟩ | ⟨front, old, back, better, closer, place⟩
  · refine .inl ⟨same, fun other member fits => ?_⟩
    rcases List.mem_cons.mp member with rfl | inside
    · exact worse fits
    · exact none other inside fits
  · refine .inr ⟨block :: front, old, back, better.cons fun fits => ?_, closer, by rw [place, shift]⟩
    have farther := worse fits
    have fit := fits.2
    omega

/-- A block that fits better is the best so far for the search of the rest. -/
theorem kept (found : Found (address + 12 + block.size) rest size (BitVec.ofNat 32 address) diff result)
    (free : block.used = false) (fits : size ≤ block.size) (amount : diff.toNat = block.size - size)
    (closer : block.size - size < bestDiff.toNat) : Found address (block :: rest) size best bestDiff result := by
  have here : block = ⟨block.size, false⟩ := by rw [← free]
  rcases found with ⟨same, none⟩ | ⟨front, old, back, better, nearer, place⟩
  · refine .inr ⟨[], block.size, rest, ?_, closer, same⟩
    rw [here]
    refine .head fits fun other member otherFits => ?_
    have farther := none other member otherFits
    have least := otherFits.2
    omega
  · refine .inr ⟨block :: front, old, back, better.cons fun _ => ?_, by omega, by rw [place, shift]⟩
    have least := better.enough
    omega

/-- No block fits better than one of exactly the size. -/
theorem exactly (free : block.used = false) (same : block.size = size) (closer : block.size - size < bestDiff.toNat) :
    Found address (block :: rest) size best bestDiff (BitVec.ofNat 32 address) := by
  have here : block = ⟨block.size, false⟩ := by rw [← free]
  refine .inr ⟨[], block.size, rest, ?_, closer, rfl⟩
  rw [here]
  exact .head same.ge fun other _ otherFits => same.trans_le otherFits.2

end Found

/-- The search ends with the best block so far, if no other fits better, or with
the best fit of the list. -/
theorem findLoop_spec {heap : Heap} {address turns : Nat} {blocks : List Block} (walk : Walk heap address blocks)
    (size : Word) {best bestDiff : Word} (enough : blocks.length < turns) :
    ∃ result, findLoop heap size turns (BitVec.ofNat 32 (if blocks = [] then 0 else address)) best bestDiff = some result ∧
      Found address blocks size.toNat best bestDiff result := by
  induction blocks generalizing address turns best bestDiff with
  | nil =>
    cases turns with
    | zero => simp at enough
    | succ turns =>
      refine ⟨best, ?_, .inl ⟨rfl, by simp⟩⟩
      rw [if_pos rfl, findLoop]
      exact if_pos rfl
  | cons block rest ih =>
    cases turns with
    | zero => simp at enough
    | succ turns =>
      have fewer : rest.length < turns := by simpa using enough
      have amount := walk.size_toNat
      have unused := used_eq_zero walk.header
      have later (best bestDiff : Word) : ∃ result,
          findLoop heap size turns (heap.next (BitVec.ofNat 32 address)) best bestDiff = some result ∧
            Found (address + 12 + block.size) rest size.toNat best bestDiff result := by
        rw [walk.next_or_null]
        exact ih walk.tail fewer
      have skip (worse : block.Fits size.toNat → bestDiff.toNat ≤ block.size - size.toNat) : ∃ result,
          findLoop heap size turns (heap.next (BitVec.ofNat 32 address)) best bestDiff = some result ∧
            Found address (block :: rest) size.toNat best bestDiff result := by
        obtain ⟨result, search, found⟩ := later best bestDiff
        exact ⟨result, search, found.passed worse⟩
      rw [if_neg (by simp), findLoop, if_neg walk.ne_zero]
      split
      · next fit =>
        obtain ⟨free, fits⟩ := fit
        rw [unused] at free
        rw [ge_iff_le, BitVec.le_def, amount] at fits
        have diff : (heap.size (BitVec.ofNat 32 address) - size).toNat = block.size - size.toNat := by
          rw [BitVec.toNat_sub_of_le (by rw [BitVec.le_def, amount]; exact fits), amount]
        dsimp only
        split
        · next closer =>
          rw [BitVec.lt_def, diff] at closer
          split
          · next zero =>
            have none_left : block.size - size.toNat = 0 := by rw [← diff, zero]; rfl
            exact ⟨_, rfl, .exactly free (by omega) closer⟩
          · obtain ⟨result, search, found⟩ := later (BitVec.ofNat 32 address) (heap.size (BitVec.ofNat 32 address) - size)
            exact ⟨result, search, found.kept free fits diff closer⟩
        · next farther =>
          rw [BitVec.lt_def, diff, Nat.not_lt] at farther
          exact skip fun _ => farther
      · next unfit =>
        refine skip fun fits => absurd ⟨unused.mpr fits.1, ?_⟩ unfit
        rw [ge_iff_le, BitVec.le_def, amount]
        exact fits.2

/-- The whole heap is the list `blocks`. -/
structure Holds (heap : Heap) (blocks : List Block) : Prop where
  walk : Walk heap heap.heapStart.toNat blocks
  nonempty : blocks ≠ []

namespace Holds

variable {heap : Heap} {blocks front back : List Block}

theorem extent_eq (holds : Holds heap blocks) : extent blocks = heap.heapSize.toNat := by
  have reach := holds.walk.reach
  rw [stop] at reach
  omega

theorem short (holds : Holds heap blocks) : blocks.length < maxTurns := by
  have reach := holds.extent_eq
  have count := @Block.length_le_extent 12 blocks
  have limit := heap.heapSize.isLt
  rw [extent] at reach
  rw [maxTurns]
  omega

/-- The list from one of its blocks on. -/
theorem from_here (holds : Holds heap (front ++ back)) :
    Walk heap (heap.heapStart.toNat + extent front) back :=
  ⟨holds.walk.nonnull, holds.walk.bounded, by omega, (span_append.mp holds.walk.span).2⟩

/-- Change the list from one of its blocks on. -/
theorem replace {other : Heap} {new : List Block} (holds : Holds heap (front ++ back)) (frame : Frame heap other)
    (walk : Walk other (heap.heapStart.toNat + extent front) new) (nonempty : new ≠ [])
    (below : heap.Same other 0 (heap.heapStart.toNat + extent front)) : Holds other (front ++ new) := by
  have stops : other.stop = heap.stop := by rw [stop, frame.heapStart, frame.heapSize, stop]
  refine ⟨⟨walk.nonnull, walk.bounded, Nat.le_refl _, ?_⟩, by simp [nonempty]⟩
  rw [span_append, frame.heapStart]
  refine ⟨?_, walk.span⟩
  rw [stops]
  exact (span_append.mp holds.walk.span).1.congr fun place lower upper => below place (by omega) upper

end Holds

theorem mergeFreeBlocks_spec {heap : Heap} {blocks : List Block} (holds : Holds heap blocks) :
    ∃ other, heap.mergeFreeBlocks = some other ∧ Frame heap other ∧ other.heapUsed = heap.heapUsed ∧
      Holds other (Block.coalesce 12 blocks) := by
  obtain ⟨other, result, merged⟩ := mergeLoop_spec holds.walk holds.nonempty (Nat.le_of_lt holds.short)
  rw [BitVec.ofNat_toNat, BitVec.setWidth_eq] at result
  refine ⟨other, result, merged.frame, merged.counter, ?_, Block.coalesce_ne_nil holds.nonempty⟩
  rw [merged.frame.heapStart]
  exact merged.walk

theorem mergeFreeBlocks_separated {heap : Heap} {blocks : List Block} (holds : Holds heap blocks)
    (separated : Block.Separated blocks) : heap.mergeFreeBlocks = some heap := by
  have result := mergeLoop_separated holds.walk holds.nonempty separated (Nat.le_of_lt holds.short)
  rw [BitVec.ofNat_toNat, BitVec.setWidth_eq] at result
  exact result

theorem mergeFreeBlocks_same {heap other : Heap} {blocks : List Block} {place : Nat} (holds : Holds heap blocks)
    (result : heap.mergeFreeBlocks = some other) (off : Block.OffHeaders 12 heap.heapStart.toNat blocks place)
    (small : place < 2 ^ 32) : other.memory (BitVec.ofNat 32 place) = heap.memory (BitVec.ofNat 32 place) := by
  apply @mergeLoop_same heap other heap.heapStart.toNat maxTurns place blocks holds.walk holds.nonempty ?_ off small
  rw [BitVec.ofNat_toNat, BitVec.setWidth_eq]
  exact result

theorem findBestFit_spec {heap : Heap} {blocks : List Block} (holds : Holds heap blocks) (size : Word) :
    ∃ result, heap.findBestFit size = some result ∧
      (result = 0 ∧ (∀ block ∈ blocks, ¬ block.Fits size.toNat) ∨
        ∃ front old back, Block.BestFit blocks size.toNat front old back ∧
          result = BitVec.ofNat 32 (heap.heapStart.toNat + extent front)) := by
  have search := @findLoop_spec heap heap.heapStart.toNat maxTurns blocks holds.walk size 0 0xFFFFFFFF holds.short
  rw [if_neg holds.nonempty, BitVec.ofNat_toNat, BitVec.setWidth_eq] at search
  obtain ⟨result, found, spec⟩ := search
  refine ⟨result, found, ?_⟩
  rcases spec with ⟨null, none⟩ | ⟨front, old, back, best, _, place⟩
  · refine .inl ⟨null, fun block member fits => ?_⟩
    -- A block is smaller than the first value of `best_diff`.
    have far : 0xFFFFFFFF ≤ block.size - size.toNat := none block member fits
    have whole := holds.extent_eq
    have limit := heap.heapSize.isLt
    obtain ⟨front, back, split⟩ := List.mem_iff_append.mp member
    rw [split, extent, Block.extent_append, Block.extent_cons] at whole
    omega
  · exact .inr ⟨front, old, back, best, place⟩

/-- `heap_validate` changes nothing or merges once more. -/
theorem validateLoop_spec {heap : Heap} {address turns : Nat} {blocks : List Block} (walk : Walk heap address blocks)
    (enough : blocks.length < turns) :
    heap.validateLoop turns (BitVec.ofNat 32 (if blocks = [] then 0 else address)) = some heap ∨
      heap.validateLoop turns (BitVec.ofNat 32 (if blocks = [] then 0 else address)) = heap.mergeFreeBlocks := by
  induction blocks generalizing address turns with
  | nil =>
    cases turns with
    | zero => simp at enough
    | succ turns =>
      left
      rw [if_pos rfl, validateLoop]
      exact if_pos rfl
  | cons block rest ih =>
    cases turns with
    | zero => simp at enough
    | succ turns =>
      rw [if_neg (by simp), validateLoop, if_neg walk.ne_zero, walk.inside]
      simp only [Bool.false_eq_true, ↓reduceIte]
      split
      · exact .inr rfl
      · rw [walk.next_or_null]
        exact ih walk.tail (by simpa using enough)

theorem heapValidate_separated {heap : Heap} {blocks : List Block} (holds : Holds heap blocks)
    (separated : Block.Separated blocks) : heap.heapValidate = some heap := by
  have validate := validateLoop_spec holds.walk holds.short
  rw [if_neg holds.nonempty, BitVec.ofNat_toNat, BitVec.setWidth_eq] at validate
  rcases validate with unchanged | again
  · exact unchanged
  · exact again.trans (mergeFreeBlocks_separated holds separated)

end Heap

end MexOS.Mm
