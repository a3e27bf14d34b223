import MexOS.Machine.Bytes
import Mathlib.Data.List.TakeWhile

/-! Strings that end at a zero byte, by themselves and inside buffers. -/

namespace MexOS.Machine

/-- The bytes of a string up to its terminator. -/
structure CString where
  bytes : List Byte
  terminated : 0 ∉ bytes

namespace CString

/-- The string that a buffer starts with. -/
def ofBytes (bytes : List Byte) : CString where
  bytes := bytes.takeWhile fun byte => byte ≠ 0
  terminated member := by simpa using List.mem_takeWhile_imp member

/-- The string in memory; behind its terminator nothing is read. -/
def stored (text : CString) : Bytes := fun place => text.bytes.getD place 0

theorem stored_lt (text : CString) {place : Nat} (inside : place < text.bytes.length) : text.stored place ≠ 0 := by
  rw [stored, List.getD_eq_getElem _ _ inside]
  intro zero
  exact text.terminated (zero ▸ List.getElem_mem inside)

theorem stored_end (text : CString) : text.stored text.bytes.length = 0 := by
  rw [stored, List.getD_eq_default _ _ (Nat.le_refl _)]

end CString

namespace Bytes

/-- The string in the `room` bytes from `offset` on. -/
def text (bytes : Bytes) (offset room : Nat) : List Byte :=
  ((List.range room).map fun place => bytes (offset + place)).takeWhile fun byte => byte ≠ 0

variable {bytes other : Bytes} {offset room : Nat}

theorem text_congr (same : Same bytes other offset (offset + room)) : other.text offset room = bytes.text offset room := by
  rw [text, text]
  congr 1
  apply List.map_congr_left
  intro place inside
  have bound := List.mem_range.mp inside
  exact same (offset + place) (Nat.le_add_right _ _) (by omega)

/-- Bytes without a zero, and a zero behind them. -/
theorem text_eq {content : List Byte} (clean : 0 ∉ content) (inside : content.length < room)
    (here : ∀ place (bound : place < content.length), bytes (offset + place) = content[place])
    (ends : bytes (offset + content.length) = 0) : bytes.text offset room = content := by
  obtain ⟨rest, rfl⟩ := Nat.exists_eq_add_of_lt inside
  have front : ((List.range content.length).map fun place => bytes (offset + place)) = content := by
    apply List.ext_getElem
    · simp
    · intro place _ bound
      simp [here place bound]
  have shape : content.length + rest + 1 = content.length + (rest + 1) := by omega
  have stop : (List.range (rest + 1)).map ((fun place => bytes (offset + place)) ∘ fun place => content.length + place) =
      0 :: (List.range rest).map ((fun place => bytes (offset + place)) ∘ (fun place => content.length + place) ∘ Nat.succ) := by
    rw [List.range_succ_eq_map, List.map_cons, List.map_map]
    simp only [Function.comp_apply, Nat.add_zero, ends]
    rfl
  rw [text, shape, List.range_add, List.map_append, List.map_map, front, stop, List.takeWhile_append_of_pos]
  · simp
  · intro byte member
    have nonzero : byte ≠ 0 := fun zero => clean (zero ▸ member)
    simpa using nonzero

theorem text_getElem {place : Nat} (inside : place < (bytes.text offset room).length) :
    (bytes.text offset room)[place] = bytes (offset + place) := by
  have before : place < ((List.range room).map fun place => bytes (offset + place)).length :=
    inside.trans_le (List.takeWhile_prefix _).length_le
  have same := List.IsPrefix.getElem (List.takeWhile_prefix fun byte : Byte => byte ≠ 0) inside
  rw [List.getElem_map, List.getElem_range] at same
  exact same

theorem text_clean (bytes : Bytes) (offset room : Nat) : 0 ∉ bytes.text offset room := by
  intro zero
  have member := List.mem_takeWhile_imp zero
  simp at member

theorem text_length_le {place : Nat} (ends : bytes (offset + place) = 0) : (bytes.text offset room).length ≤ place := by
  by_contra longer
  have zero := @text_getElem bytes offset room place (not_le.mp longer)
  rw [ends] at zero
  exact text_clean bytes offset room (zero ▸ List.getElem_mem _)

theorem text_length (bytes : Bytes) (offset room : Nat) : (bytes.text offset room).length ≤ room := by
  have upper := (@List.takeWhile_prefix _ ((List.range room).map fun place => bytes (offset + place))
    fun byte => byte ≠ 0).length_le
  rwa [List.length_map, List.length_range] at upper

/-- The terminator of a string that ends inside its buffer. -/
theorem text_short (short : (bytes.text offset room).length < room) :
    bytes (offset + (bytes.text offset room).length) = 0 := by
  generalize content : (List.range room).map (fun place => bytes (offset + place)) = all
  have taken : bytes.text offset room = all.takeWhile fun byte => byte ≠ 0 := by rw [text, content]
  have size : all.length = room := by rw [← content, List.length_map, List.length_range]
  rw [taken] at short ⊢
  have inside : (all.takeWhile fun byte => byte ≠ 0).length < all.length := size ▸ short
  have split := @List.takeWhile_append_dropWhile _ (fun byte : Byte => byte ≠ 0) all
  have rest : all.dropWhile (fun byte => byte ≠ 0) ≠ [] := by
    intro none
    rw [none, List.append_nil] at split
    exact absurd (congrArg List.length split) inside.ne
  have stop := List.head_dropWhile_not _ rest
  have first : all[(all.takeWhile fun byte => byte ≠ 0).length] = (all.dropWhile fun byte => byte ≠ 0).head rest := by
    rw [List.getElem_of_eq split.symm inside, List.getElem_append_right (Nat.le_refl _), List.head_eq_getElem]
    simp only [Nat.sub_self]
  have here : all[(all.takeWhile fun byte => byte ≠ 0).length] =
      bytes (offset + (all.takeWhile fun byte => byte ≠ 0).length) := by
    subst content
    rw [List.getElem_map, List.getElem_range]
  rw [← here, first]
  simpa using stop

/-- A string is a prefix of the bytes of its buffer. -/
theorem toList_text (bytes : Bytes) (room : Nat) : bytes.toList (bytes.text 0 room).length = bytes.text 0 room := by
  have front := List.prefix_iff_eq_take.mp
    (@List.takeWhile_prefix _ ((List.range room).map fun place => bytes (0 + place)) fun byte => byte ≠ 0)
  have inside := bytes.text_length 0 room
  rw [← text] at front
  conv_rhs => rw [front]
  rw [← List.map_take, List.take_range, Nat.min_eq_left inside, toList]
  simp only [Nat.zero_add]

/-- A string that starts with its terminator. -/
theorem text_nil (positive : 0 < room) (ends : bytes offset = 0) : bytes.text offset room = [] := by
  apply text_eq
  · simp
  · exact positive
  · simp
  · exact ends

/-- A string that was copied into the buffer with zeros behind it. -/
theorem text_copy {content : List Byte} (clean : 0 ∉ content) (inside : content.length < room) :
    (bytes.copy offset (fun place => content.getD place 0) 0 room).text offset room = content := by
  apply text_eq clean inside
  · intro place bound
    rw [copy_inside (Nat.le_add_right _ _) (by omega), Nat.zero_add, Nat.add_sub_cancel_left,
      List.getD_eq_getElem _ _ bound]
  · rw [copy_inside (Nat.le_add_right _ _) (by omega), Nat.zero_add, Nat.add_sub_cancel_left,
      List.getD_eq_default _ _ (Nat.le_refl _)]

end Bytes

end MexOS.Machine
