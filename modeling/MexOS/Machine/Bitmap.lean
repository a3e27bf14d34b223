import Mathlib.Data.Finset.Card
import Mathlib.Data.Finset.Range
import Mathlib.Logic.Function.Basic

/-! Bitmaps as arrays of words of any width, and first-hit searches over index
ranges. -/

namespace MexOS.Machine

/-- Words of a bitmap by index; the array has no end of its own. -/
abbrev Bitmap (width : Nat) := Nat → BitVec width

namespace Bitmap

variable {width : Nat}

def test (words : Bitmap width) (bit : Nat) : Bool := (words (bit / width)).getLsbD (bit % width)

def set (words : Bitmap width) (bit : Nat) : Bitmap width :=
  Function.update words (bit / width) (words (bit / width) ||| BitVec.ofNat width 1 <<< (bit % width))

def clear (words : Bitmap width) (bit : Nat) : Bitmap width :=
  Function.update words (bit / width) (words (bit / width) &&& ~~~(BitVec.ofNat width 1 <<< (bit % width)))

private theorem one_shift_bit (first second : Nat) (small : second < width) :
    (BitVec.ofNat width 1 <<< first).getLsbD second = decide (first = second) := by
  rw [BitVec.getLsbD_shiftLeft]
  by_cases same : first = second
  · subst same
    simp [small]
    omega
  · by_cases before : second < first
    · simp [before, same]
    · have later : second - first ≠ 0 := by omega
      simp [same, later]

private theorem same_bit {first second : Nat}
    (word : first / width = second / width) : first % width = second % width ↔ first = second := by
  constructor
  · intro lane
    rw [← Nat.div_add_mod first width, ← Nat.div_add_mod second width, word, lane]
  · intro same
    rw [same]

theorem test_set (words : Bitmap width) (positive : 0 < width) (bit other : Nat) :
    (words.set bit).test other = (decide (bit = other) || words.test other) := by
  unfold test set
  by_cases word : bit / width = other / width
  · have lane := one_shift_bit (bit % width) (other % width) (Nat.mod_lt other positive)
    rw [← word, Function.update_self, BitVec.getLsbD_or, lane, Bool.or_comm]
    simp only [same_bit word]
  · have distinct : bit ≠ other := fun same => word (by rw [same])
    rw [Function.update_of_ne (Ne.symm word)]
    simp [distinct]

theorem test_clear (words : Bitmap width) (positive : 0 < width) (bit other : Nat) :
    (words.clear bit).test other = (!decide (bit = other) && words.test other) := by
  unfold test clear
  have small := Nat.mod_lt other positive
  by_cases word : bit / width = other / width
  · have lane := one_shift_bit (bit % width) (other % width) small
    rw [← word, Function.update_self, BitVec.getLsbD_and, BitVec.getLsbD_not, lane, Bool.and_comm]
    simp only [small, decide_true, Bool.true_and, same_bit word]
  · have distinct : bit ≠ other := fun same => word (by rw [same])
    rw [Function.update_of_ne (Ne.symm word)]
    simp [distinct]

/-- A free bit that is set and cleared again. -/
theorem clear_set {words : Bitmap width} {bit : Nat} (unset : words.test bit = false) :
    (words.set bit).clear bit = words := by
  have restored : (words (bit / width) ||| BitVec.ofNat width 1 <<< (bit % width)) &&&
      ~~~(BitVec.ofNat width 1 <<< (bit % width)) = words (bit / width) := by
    apply BitVec.eq_of_getLsbD_eq
    intro lane bound
    rw [BitVec.getLsbD_and, BitVec.getLsbD_or, BitVec.getLsbD_not, one_shift_bit _ lane bound]
    by_cases same : bit % width = lane
    · subst same
      rw [test] at unset
      simp [unset]
    · simp [same, bound]
  rw [clear, set, Function.update_self, Function.update_idem, restored, Function.update_eq_self]

/-- Masking one bit out of a word tells whether it is set. -/
theorem and_one_shift (value : BitVec width) {bit : Nat} (small : bit < width) :
    value &&& BitVec.ofNat width 1 <<< bit = BitVec.ofNat width 0 ↔ value.getLsbD bit = false := by
  constructor
  · intro zero
    have lane := congrArg (fun result => result.getLsbD bit) zero
    simpa [one_shift_bit bit bit small] using lane
  · intro unset
    apply BitVec.eq_of_getLsbD_eq
    intro lane bound
    rw [BitVec.getLsbD_and, one_shift_bit bit lane bound]
    by_cases same : bit = lane
    · subst same
      simp [unset]
    · simp [same]

/-- How many of the first `count` bits are set. -/
def population (words : Bitmap width) (count : Nat) : Nat :=
  ((Finset.range count).filter fun bit => words.test bit = true).card

/-- Which of the first `count` bits are set. -/
def marked (words : Bitmap width) (count : Nat) : Finset Nat :=
  (Finset.range count).filter fun bit => words.test bit = true

@[simp] theorem mem_marked {words : Bitmap width} {bit count : Nat} :
    bit ∈ words.marked count ↔ bit < count ∧ words.test bit = true := by
  simp [marked]

theorem marked_set {words : Bitmap width} (positive : 0 < width) {bit count : Nat} (inside : bit < count) :
    (words.set bit).marked count = insert bit (words.marked count) := by
  ext other
  simp only [mem_marked, Finset.mem_insert, test_set words positive, Bool.or_eq_true, decide_eq_true_eq]
  constructor
  · rintro ⟨bound, same | old⟩
    · exact .inl same.symm
    · exact .inr ⟨bound, old⟩
  · rintro (same | ⟨bound, old⟩)
    · exact ⟨same ▸ inside, .inl same.symm⟩
    · exact ⟨bound, .inr old⟩

theorem marked_clear {words : Bitmap width} (positive : 0 < width) (bit count : Nat) :
    (words.clear bit).marked count = (words.marked count).erase bit := by
  ext other
  simp only [mem_marked, Finset.mem_erase, test_clear words positive, Bool.and_eq_true, Bool.not_eq_true',
    decide_eq_false_iff_not]
  constructor
  · rintro ⟨bound, distinct, old⟩
    exact ⟨Ne.symm distinct, bound, old⟩
  · rintro ⟨distinct, bound, old⟩
    exact ⟨bound, Ne.symm distinct, old⟩

theorem population_set {words : Bitmap width} (positive : 0 < width) {bit count : Nat}
    (inside : bit < count) (unset : words.test bit = false) :
    (words.set bit).population count = words.population count + 1 := by
  change ((words.set bit).marked count).card = (words.marked count).card + 1
  rw [marked_set positive inside, Finset.card_insert_of_notMem (by simp [unset])]

theorem population_clear {words : Bitmap width} (positive : 0 < width) {bit count : Nat}
    (inside : bit < count) (present : words.test bit = true) :
    (words.clear bit).population count + 1 = words.population count := by
  change ((words.clear bit).marked count).card + 1 = (words.marked count).card
  rw [marked_clear positive, Finset.card_erase_add_one (mem_marked.mpr ⟨inside, present⟩)]

theorem population_le (words : Bitmap width) (count : Nat) : words.population count ≤ count := by
  have bound := Finset.card_filter_le (Finset.range count) fun bit => words.test bit = true
  simpa [population] using bound

theorem population_eq_iff (words : Bitmap width) (count : Nat) :
    words.population count = count ↔ ∀ bit < count, words.test bit = true := by
  have full := Finset.card_filter_eq_iff (s := Finset.range count)
    (p := fun bit => words.test bit = true)
  rw [Finset.card_range] at full
  simpa [population] using full

end Bitmap

/-- A search over a range stops at the first index that answers. -/
theorem findSome_range_eq_some {answer : Nat → Option α} {count : Nat} {value : α} :
    (List.range count).findSome? answer = some value ↔
      ∃ index < count, answer index = some value ∧ ∀ earlier < index, answer earlier = none := by
  induction count with
  | zero => simp
  | succ count ih =>
    rw [List.range_succ, List.findSome?_append]
    cases found : (List.range count).findSome? answer with
    | some first =>
      rw [found] at ih
      simp only [Option.some_or]
      constructor
      · intro same
        obtain ⟨index, bound, here, before⟩ := ih.mp same
        exact ⟨index, by omega, here, before⟩
      · intro ⟨index, bound, here, before⟩
        apply ih.mpr
        by_cases last : index = count
        · subst last
          have none_before : (List.range index).findSome? answer = none := by
            rw [List.findSome?_eq_none_iff]
            intro earlier member
            exact before earlier (List.mem_range.mp member)
          rw [none_before] at found
          cases found
        · exact ⟨index, by omega, here, before⟩
    | none =>
      rw [List.findSome?_eq_none_iff] at found
      simp only [Option.none_or, List.findSome?_cons, List.findSome?_nil]
      constructor
      · intro here
        refine ⟨count, by omega, ?_, fun earlier bound => found earlier (List.mem_range.mpr bound)⟩
        cases last : answer count <;> simp_all
      · intro ⟨index, bound, here, before⟩
        by_cases last : index = count
        · subst last
          simp [here]
        · have missing := found index (List.mem_range.mpr (by omega))
          rw [missing] at here
          cases here

theorem findSome_range_eq_none {answer : Nat → Option α} {count : Nat} :
    (List.range count).findSome? answer = none ↔ ∀ index < count, answer index = none := by
  simp [List.findSome?_eq_none_iff]

end MexOS.Machine
