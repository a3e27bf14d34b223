import Mathlib.Logic.Function.Basic
import Mathlib.Data.List.Basic

/-! Circular buffers that keep one slot free, seen as the list they hold. -/

namespace MexOS.Machine

variable {α : Type u}

structure RingBuffer (α : Type u) where
  slots : Nat → α
  head : Nat
  tail : Nat
  size : Nat

namespace RingBuffer

/-- The indices stay inside the slots. -/
structure Valid (ring : RingBuffer α) : Prop where
  head_lt : ring.head < ring.size
  tail_lt : ring.tail < ring.size

def next (ring : RingBuffer α) (index : Nat) : Nat := (index + 1) % ring.size

def count (ring : RingBuffer α) : Nat := (ring.tail + ring.size - ring.head) % ring.size

/-- From the oldest entry to the newest. -/
def contents (ring : RingBuffer α) : List α :=
  (List.range ring.count).map fun offset => ring.slots ((ring.head + offset) % ring.size)

def push (ring : RingBuffer α) (value : α) : RingBuffer α :=
  { ring with slots := Function.update ring.slots ring.tail value, tail := ring.next ring.tail }

def pop (ring : RingBuffer α) : RingBuffer α := { ring with head := ring.next ring.head }

/-- Sums of two indices wrap at most once. -/
private theorem mod_once {size sum : Nat} (small : sum < 2 * size) :
    sum % size = if sum < size then sum else sum - size := by
  split
  · next inside => exact Nat.mod_eq_of_lt inside
  · next outside =>
    rw [Nat.mod_eq_sub_mod (by omega), Nat.mod_eq_of_lt (by omega)]

theorem next_eq {ring : RingBuffer α} {index : Nat} (inside : index < ring.size) :
    ring.next index = if index + 1 < ring.size then index + 1 else 0 := by
  rw [next, mod_once (by omega)]
  split
  · rfl
  · omega

theorem length_contents (ring : RingBuffer α) : ring.contents.length = ring.count := by simp [contents]

namespace Valid

variable {ring : RingBuffer α} (valid : Valid ring)

include valid

theorem count_eq : ring.count =
    if ring.head ≤ ring.tail then ring.tail - ring.head else ring.tail + ring.size - ring.head := by
  obtain ⟨head, tail⟩ := valid
  rw [count, mod_once (by omega)]
  split <;> split <;> omega

theorem length_lt : ring.contents.length < ring.size := by
  obtain ⟨head, tail⟩ := id valid
  rw [length_contents, count]
  exact Nat.mod_lt _ (by omega)

theorem push_valid (value : α) : Valid (ring.push value) := by
  obtain ⟨head, tail⟩ := id valid
  refine ⟨head, ?_⟩
  rw [push]
  exact Nat.mod_lt _ (by omega)

theorem pop_valid : Valid ring.pop := by
  obtain ⟨head, tail⟩ := id valid
  refine ⟨?_, tail⟩
  rw [pop]
  exact Nat.mod_lt _ (by omega)

theorem contents_eq_nil : ring.contents = [] ↔ ring.head = ring.tail := by
  obtain ⟨head, tail⟩ := id valid
  have count := valid.count_eq
  rw [← List.length_eq_zero_iff, length_contents]
  split at count <;> omega

/-- The buffer is full when one more entry would make it look empty. -/
theorem full_iff : ring.next ring.tail = ring.head ↔ ring.contents.length = ring.size - 1 := by
  obtain ⟨head, tail⟩ := id valid
  have count := valid.count_eq
  have next := next_eq tail
  rw [length_contents]
  split at count <;> split at next <;> omega

theorem contents_push (value : α) (room : ring.next ring.tail ≠ ring.head) :
    (ring.push value).contents = ring.contents ++ [value] := by
  obtain ⟨head, tail⟩ := id valid
  have count := valid.count_eq
  have next := next_eq tail
  have grown : (ring.push value).count = ring.count + 1 := by
    have pushed : (ring.push value).count =
        if ring.head ≤ ring.next ring.tail then ring.next ring.tail - ring.head
        else ring.next ring.tail + ring.size - ring.head := (valid.push_valid value).count_eq
    split at count <;> split at next <;> split at pushed <;> omega
  have last : (ring.head + ring.count) % ring.size = ring.tail := by
    rw [mod_once (by split at count <;> omega)]
    split at count <;> split <;> omega
  have old : ∀ offset ∈ List.range ring.count,
      (ring.push value).slots ((ring.head + offset) % ring.size) =
        ring.slots ((ring.head + offset) % ring.size) := by
    intro offset member
    have bound := List.mem_range.mp member
    have elsewhere : (ring.head + offset) % ring.size ≠ ring.tail := by
      rw [mod_once (by split at count <;> omega)]
      split at count <;> split <;> omega
    simp [push, Function.update_of_ne elsewhere]
  have kept : ((List.range ring.count).map fun offset =>
      (ring.push value).slots ((ring.head + offset) % ring.size)) = ring.contents :=
    List.map_congr_left old
  have newest : (ring.push value).slots ((ring.head + ring.count) % ring.size) = value := by
    simp [last, push]
  rw [contents, grown, List.range_succ, List.map_append, List.map_singleton]
  exact congrArg₂ (fun front back => front ++ [back]) kept newest

theorem contents_pop (filled : ring.head ≠ ring.tail) :
    ring.contents = ring.slots ring.head :: ring.pop.contents := by
  obtain ⟨head, tail⟩ := id valid
  have count := valid.count_eq
  have next := next_eq head
  have shrunk : ring.count = ring.pop.count + 1 := by
    have popped : ring.pop.count =
        if ring.next ring.head ≤ ring.tail then ring.tail - ring.next ring.head
        else ring.tail + ring.size - ring.next ring.head := valid.pop_valid.count_eq
    split at count <;> split at next <;> split at popped <;> omega
  have first : (ring.head + 0) % ring.size = ring.head := Nat.mod_eq_of_lt (by omega)
  have shifted : ∀ offset ∈ List.range ring.pop.count,
      (fun index => ring.slots ((ring.head + index) % ring.size)) (offset + 1) =
        ring.slots ((ring.next ring.head + offset) % ring.size) := by
    intro offset member
    rw [RingBuffer.next, Nat.mod_add_mod, Nat.add_right_comm, Nat.add_assoc]
  rw [contents, shrunk, List.range_succ_eq_map, List.map_cons, List.map_map, first]
  exact congrArg _ (List.map_congr_left shifted)

end Valid

end RingBuffer

end MexOS.Machine
