import MexOS.Machine.Strings

/-! The string functions of `lib/string.c` that write into buffers. -/

namespace MexOS.Lib

open MexOS.Machine

/-- The first loop of `strncpy` from `index` on: the buffer, where the loop has
come to and what is left of `n`. The terminator is written, but not counted. -/
def strncpyCopy (source : Bytes) (offset : Nat) : Nat → Nat → Bytes → Bytes × Nat × Nat
  | 0, index, dest => (dest, index, 0)
  | n + 1, index, dest =>
    let dest := Function.update dest (offset + index) (source index)
    if source index = 0 then (dest, index + 1, n + 1) else strncpyCopy source offset n (index + 1) dest

/-- The second loop. -/
def strncpyPad (offset : Nat) : Nat → Nat → Bytes → Bytes
  | 0, _, dest => dest
  | n + 1, index, dest => strncpyPad offset n (index + 1) (Function.update dest (offset + index) 0)

/-- `strncpy(dest + offset, source, n)` for objects that do not overlap. -/
def strncpy (dest : Bytes) (offset : Nat) (source : Bytes) (n : Nat) : Bytes :=
  let (dest, index, left) := strncpyCopy source offset n 0 dest
  strncpyPad offset left index dest

variable {source dest : Bytes} {offset n index : Nat}

theorem strncpyPad_eq : strncpyPad offset n index dest = fun place =>
    if offset + index ≤ place ∧ place < offset + index + n then 0 else dest place := by
  induction n generalizing index dest with
  | zero =>
    funext place
    rw [if_neg (by omega)]
    rfl
  | succ n ih =>
    rw [strncpyPad, ih]
    funext place
    by_cases here : place = offset + index
    · rw [if_neg (by omega), if_pos (by omega), here, Function.update_self]
    · rw [Function.update_of_ne here]
      split <;> split <;> first | rfl | omega

/-- A source with no terminator among the bytes to be copied. -/
theorem strncpyCopy_long (long : ∀ place < index + n, index ≤ place → source place ≠ 0) :
    strncpyCopy source offset n index dest = (dest.copy (offset + index) source index n, index + n, 0) := by
  induction n generalizing index dest with
  | zero =>
    have same : dest.copy (offset + index) source index 0 = dest := by
      funext place
      exact Bytes.copy_outside (by omega)
    rw [strncpyCopy, same, Nat.add_zero]
  | succ n ih =>
    have nonzero : source index ≠ 0 := long index (by omega) (Nat.le_refl _)
    rw [strncpyCopy, if_neg nonzero, ih fun place bound lower => long place (by omega) (by omega)]
    refine Prod.ext ?_ (Prod.ext (by simp only; omega) rfl)
    funext place
    simp only [Bytes.copy]
    by_cases here : place = offset + index
    · subst here
      rw [if_neg (by omega), if_pos (by omega), Function.update_self]
      congr 1
      omega
    · rw [Function.update_of_ne here]
      split <;> split <;> first | rfl | omega | (congr 1; omega)

theorem strncpyCopy_short {length : Nat} (before : ∀ place < length, index ≤ place → source place ≠ 0)
    (ends : source length = 0) (lower : index ≤ length) (upper : length < index + n) :
    strncpyCopy source offset n index dest =
      (dest.copy (offset + index) source index (length + 1 - index), length + 1, index + n - length) := by
  induction n generalizing index dest with
  | zero => omega
  | succ n ih =>
    rw [strncpyCopy]
    by_cases last : index = length
    · subst last
      rw [if_pos ends]
      refine Prod.ext ?_ (Prod.ext rfl (by simp only; omega))
      funext place
      dsimp only
      by_cases here : place = offset + index
      · subst here
        rw [Bytes.copy_inside (Nat.le_refl _) (by omega), Function.update_self]
        congr 1
        omega
      · rw [Bytes.copy_outside (by omega), Function.update_of_ne here]
    · rw [if_neg (before index (by omega) (Nat.le_refl _)),
        ih (fun place bound lower => before place bound (by omega)) (by omega) (by omega)]
      refine Prod.ext ?_ (Prod.ext rfl (by simp only; omega))
      funext place
      simp only [Bytes.copy]
      by_cases here : place = offset + index
      · subst here
        rw [if_neg (by omega), if_pos (by omega), Function.update_self]
        congr 1
        omega
      · rw [Function.update_of_ne here]
        split <;> split <;> first | rfl | omega | (congr 1; omega)

theorem strncpy_long (long : ∀ place < n, source place ≠ 0) :
    strncpy dest offset source n = dest.copy offset source 0 n := by
  rw [strncpy, strncpyCopy_long fun place bound _ => long place (by omega)]
  rfl

/-- A source that ends before `n` bytes is filled up with zeros, and with one
zero more than there is room for. -/
theorem strncpy_short {length : Nat} (before : ∀ place < length, source place ≠ 0) (ends : source length = 0)
    (short : length < n) : strncpy dest offset source n =
      dest.copy offset (fun place => if place < length then source place else 0) 0 (n + 1) := by
  rw [strncpy, strncpyCopy_short (fun place bound _ => before place bound) ends (Nat.zero_le _) (by omega)]
  simp only [strncpyPad_eq]
  funext place
  simp only [Bytes.copy]
  by_cases padded : offset + (length + 1) ≤ place ∧ place < offset + (length + 1) + (0 + n - length)
  · rw [if_pos padded, if_pos (by omega), if_neg (by omega)]
  · rw [if_neg padded]
    by_cases copied : offset + 0 ≤ place ∧ place < offset + 0 + (length + 1 - 0)
    · rw [if_pos copied, if_pos (by omega)]
      by_cases last : place = offset + length
      · rw [if_neg (by omega), last]
        have index : 0 + (offset + length - (offset + 0)) = length := by omega
        rw [index, ends]
      · rw [if_pos (by omega)]
        congr 1
    · rw [if_neg copied, if_neg (by omega)]

/-- `after` is `dest` with the string in `n` bytes from `offset` on, filled up
with zeros, and with nothing else changed. -/
structure FillsWith (dest after : Bytes) (offset : Nat) (source : CString) (n : Nat) : Prop where
  copied : ∀ place (bound : place < source.bytes.length), place < n → after (offset + place) = source.bytes[place]
  padded : ∀ place, source.bytes.length ≤ place → place < n → after (offset + place) = 0
  others : ∀ place, place < offset ∨ offset + n ≤ place → after place = dest place

/-- `strncpy` keeps to its `n` bytes if and only if the source is no shorter, or
the zero it puts behind them is there already. -/
theorem strncpy_fills_iff (dest : Bytes) (offset : Nat) (source : CString) (n : Nat) :
    FillsWith dest (strncpy dest offset source.stored n) offset source n ↔
      n ≤ source.bytes.length ∨ dest (offset + n) = 0 := by
  by_cases long : n ≤ source.bytes.length
  · have copied : strncpy dest offset source.stored n = dest.copy offset source.stored 0 n :=
      strncpy_long fun place bound => source.stored_lt (by omega)
    refine iff_of_true ⟨?_, ?_, ?_⟩ (.inl long)
    · intro place bound inside
      rw [copied, Bytes.copy_inside (Nat.le_add_right _ _) (by omega), Nat.zero_add, Nat.add_sub_cancel_left]
      exact List.getD_eq_getElem _ _ bound
    · intro place behind inside
      omega
    · intro place outside
      rw [copied, Bytes.copy_outside outside]
  · have short : source.bytes.length < n := by omega
    have filled : strncpy dest offset source.stored n = _ :=
      strncpy_short (fun place => source.stored_lt) source.stored_end short
    have last : strncpy dest offset source.stored n (offset + n) = 0 := by
      rw [filled, Bytes.copy_inside (Nat.le_add_right _ _) (by omega), if_neg (by omega)]
    constructor
    · intro fills
      have kept := fills.others (offset + n) (.inr (Nat.le_refl _))
      exact .inr (kept.symm.trans last)
    · rintro (fits | zero)
      · exact absurd fits long
      refine ⟨?_, ?_, ?_⟩
      · intro place bound inside
        rw [filled, Bytes.copy_inside (Nat.le_add_right _ _) (by omega), Nat.zero_add, Nat.add_sub_cancel_left,
          if_pos bound]
        exact List.getD_eq_getElem _ _ bound
      · intro place behind inside
        rw [filled, Bytes.copy_inside (Nat.le_add_right _ _) (by omega), Nat.zero_add, Nat.add_sub_cancel_left,
          if_neg (by omega)]
      · intro place outside
        by_cases here : place = offset + n
        · rw [here, last, zero]
        · rw [filled, Bytes.copy_outside (by omega)]

/-- The byte behind the two that `strncpy(dest, "a", 2)` may write. -/
theorem strncpy_writes_behind : ¬ ∀ (dest : Bytes) (offset : Nat) (source : CString) (n : Nat),
    FillsWith dest (strncpy dest offset source.stored n) offset source n := by
  intro claim
  have kept := (claim (fun _ => 1) 0 ⟨[97], by decide⟩ 2).others 2 (.inr (Nat.le_refl _))
  exact absurd kept (by decide)

/-- The string of a buffer of `size` bytes is set with `strncpy` and its last
byte then. -/
def setText (dest : Bytes) (offset : Nat) (source : CString) (size : Nat) : Bytes :=
  Function.update (strncpy dest offset source.stored (size - 1)) (offset + (size - 1)) 0

theorem setText_eq {source : CString} {size : Nat} (positive : 0 < size) : setText dest offset source size =
    dest.copy offset (fun place => (source.bytes.take (size - 1)).getD place 0) 0 size := by
  have cut (place : Nat) : (source.bytes.take (size - 1)).getD place 0 =
      if place < size - 1 then source.stored place else 0 := by
    simp only [CString.stored, List.getD_eq_getElem?_getD, List.getElem?_take]
    split <;> rfl
  funext place
  rw [setText]
  by_cases last : place = offset + (size - 1)
  · rw [last, Function.update_self, Bytes.copy_inside (by omega) (by omega), cut, if_neg (by omega)]
  · rw [Function.update_of_ne last]
    by_cases short : source.bytes.length < size - 1
    · rw [strncpy_short (fun place => source.stored_lt) source.stored_end short, Nat.sub_add_cancel positive]
      simp only [Bytes.copy, cut]
      split
      · split
        · rw [if_pos (by omega)]
        · split
          · rw [CString.stored, List.getD_eq_default _ _ (by omega)]
          · rfl
      · rfl
    · rw [strncpy_long fun place bound => source.stored_lt (by omega)]
      simp only [Bytes.copy, cut]
      split
      · rw [if_pos (by omega), if_pos (by omega)]
      · rw [if_neg (by omega)]

/-- The string is then what fits of the source. -/
theorem text_setText {source : CString} {size : Nat} (positive : 0 < size) :
    (setText dest offset source size).text offset size = source.bytes.take (size - 1) := by
  rw [setText_eq positive]
  apply Bytes.text_copy
  · exact fun zero => source.terminated (List.mem_of_mem_take zero)
  · rw [List.length_take]
    omega

/-- `strcat(dest, source)` for a string that ends inside the `room` bytes of
`dest`. -/
def strcat (dest : Bytes) (room : Nat) (source : CString) : Bytes :=
  dest.copy (dest.text 0 room).length source.stored 0 (source.bytes.length + 1)

theorem text_strcat {source : CString} {room : Nat} (fits : (dest.text 0 room).length + source.bytes.length < room) :
    (strcat dest room source).text 0 room = dest.text 0 room ++ source.bytes := by
  apply Bytes.text_eq
  · rw [List.mem_append, not_or]
    exact ⟨Bytes.text_clean _ _ _, source.terminated⟩
  · rwa [List.length_append]
  · intro place bound
    rw [List.length_append] at bound
    rw [Nat.zero_add, strcat]
    by_cases front : place < (dest.text 0 room).length
    · rw [Bytes.copy_outside (.inl front), List.getElem_append_left front, Bytes.text_getElem, Nat.zero_add]
    · rw [Bytes.copy_inside (not_lt.mp front) (by omega), List.getElem_append_right (not_lt.mp front), Nat.zero_add,
        CString.stored, List.getD_eq_getElem]
  · rw [Nat.zero_add, List.length_append, strcat, Bytes.copy_inside (Nat.le_add_right _ _) (by omega), Nat.zero_add,
      Nat.add_sub_cancel_left]
    exact source.stored_end

end MexOS.Lib
