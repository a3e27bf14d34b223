import Mathlib.Logic.Function.Basic
import Mathlib.Data.List.Basic

/-! Circular buffers that overwrite their oldest entry, seen as the end of the
list of everything that was put in. -/

namespace MexOS.Machine

structure RecentRing (α : Type u) where
  slots : Nat → α
  head : Nat
  count : Nat

namespace RecentRing

variable {α : Type u} {β : Type v}

def push (size : Nat) (ring : RecentRing α) (value : α) : RecentRing α where
  slots := Function.update ring.slots ring.head value
  head := (ring.head + 1) % size
  count := if ring.count < size then ring.count + 1 else ring.count

/-- Where the entry is that comes after `index` older ones. -/
def place (size : Nat) (ring : RecentRing α) (index : Nat) : Nat :=
  if ring.count < size then index else (ring.head + index) % size

/-- The slots show the last `size` entries of a history. -/
structure Keeps (size : Nat) (shows : α → β → Prop) (ring : RecentRing α) (history : List β) : Prop where
  head : ring.head = history.length % size
  count : ring.count = min history.length size
  latest : ∀ i (bound : i < history.length), history.length ≤ i + size → shows (ring.slots (i % size)) history[i]

namespace Keeps

variable {size : Nat} {shows : α → β → Prop} {ring : RecentRing α} {history : List β}

theorem empty (slots : Nat → α) : Keeps size shows ⟨slots, 0, 0⟩ ([] : List β) where
  head := (Nat.zero_mod size).symm
  count := (Nat.zero_min size).symm
  latest i bound := absurd bound (Nat.not_lt_zero i)

theorem push (keeps : Keeps size shows ring history) {value : α} {entry : β}
    (shown : shows value entry) : Keeps size shows (ring.push size value) (history ++ [entry]) where
  head := by
    rw [RecentRing.push, keeps.head, Nat.mod_add_mod, List.length_append, List.length_singleton]
  count := by
    have count := keeps.count
    rw [RecentRing.push, List.length_append, List.length_singleton]
    simp only
    split <;> omega
  latest i bound recent := by
    rw [List.length_append, List.length_singleton] at bound recent
    change shows (Function.update ring.slots ring.head value (i % size)) _
    rw [keeps.head]
    by_cases last : i = history.length
    · subst last
      rw [Function.update_self, List.getElem_append_right (Nat.le_refl _)]
      simpa using shown
    · have before : i < history.length := by omega
      -- Two numbers less than `size` apart have different remainders.
      have elsewhere : i % size ≠ history.length % size := by
        intro same
        have whole := Nat.sub_mod_eq_zero_of_mod_eq same.symm
        rw [Nat.mod_eq_of_lt (by omega)] at whole
        omega
      rw [Function.update_of_ne elsewhere, List.getElem_append_left before]
      exact keeps.latest i before (by omega)

/-- Reading from the oldest entry that is left. -/
theorem read (keeps : Keeps size shows ring history) {index : Nat} (inside : index < ring.count) :
    ∃ bound : history.length - min history.length size + index < history.length,
      shows (ring.slots (ring.place size index)) history[history.length - min history.length size + index] := by
  have count := keeps.count
  have bound : history.length - min history.length size + index < history.length := by omega
  refine ⟨bound, ?_⟩
  have shown := keeps.latest _ bound (by omega)
  have here : ring.place size index = (history.length - min history.length size + index) % size := by
    rw [place, keeps.head]
    split
    · have first : history.length - min history.length size + index = index := by omega
      rw [first, Nat.mod_eq_of_lt (by omega)]
    · have full : min history.length size = size := by omega
      have turn : history.length + index = history.length - size + index + size := by omega
      rw [full, Nat.mod_add_mod, turn, Nat.add_mod_right]
  rw [here]
  exact shown

end Keeps

end RecentRing

end MexOS.Machine
