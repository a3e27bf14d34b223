import MexOS.Machine.Memory

/-! Buffers and packed records as the bytes they are made of, by offset. -/

namespace MexOS.Machine

/-- The bytes of a buffer; those past its end are not part of it. -/
abbrev Bytes := Nat → Byte

namespace Bytes

def zero : Bytes := fun _ => 0

/-- The word at an offset, least significant byte first. -/
def word (bytes : Bytes) (offset : Nat) : Word :=
  bytes (offset + 3) ++ bytes (offset + 2) ++ bytes (offset + 1) ++ bytes offset

def setWord (bytes : Bytes) (offset : Nat) (value : Word) : Bytes := fun place =>
  if place = offset then value.extractLsb' 0 8
  else if place = offset + 1 then value.extractLsb' 8 8
  else if place = offset + 2 then value.extractLsb' 16 8
  else if place = offset + 3 then value.extractLsb' 24 8
  else bytes place

/-- `memcpy(dest + offset, source + start, length)`. -/
def copy (dest : Bytes) (offset : Nat) (source : Bytes) (start length : Nat) : Bytes := fun place =>
  if offset ≤ place ∧ place < offset + length then source (start + (place - offset)) else dest place

/-- Both hold the same bytes from `first` up to `last`. -/
def Same (bytes other : Bytes) (first last : Nat) : Prop :=
  ∀ place, first ≤ place → place < last → other place = bytes place

namespace Same

variable {bytes other third : Bytes} {first last : Nat}

theorem refl (bytes : Bytes) (first last : Nat) : Same bytes bytes first last := fun _ _ _ => rfl

theorem symm (same : Same bytes other first last) : Same other bytes first last := by
  intro place lower upper
  exact (same place lower upper).symm

theorem trans (left : Same bytes other first last) (right : Same other third first last) :
    Same bytes third first last := by
  intro place lower upper
  rw [right place lower upper, left place lower upper]

theorem narrow {lower upper : Nat} (same : Same bytes other first last) (below : first ≤ lower) (above : upper ≤ last) :
    Same bytes other lower upper := by
  intro place after before
  exact same place (by omega) (by omega)

theorem word {offset : Nat} (same : Same bytes other first last) (lower : first ≤ offset) (upper : offset + 4 ≤ last) :
    other.word offset = bytes.word offset := by
  simp only [Bytes.word]
  rw [same _ (by omega) (by omega), same _ (by omega) (by omega), same _ (by omega) (by omega),
    same offset (by omega) (by omega)]

end Same

variable {bytes dest source : Bytes} {offset start length place : Nat} {value : Word}

/-- The same four bytes at different places. -/
theorem word_shift {other : Bytes} (same : ∀ lane < 4, other (start + lane) = bytes (offset + lane)) :
    other.word start = bytes.word offset := by
  have first := same 0 (by decide)
  rw [Nat.add_zero, Nat.add_zero] at first
  simp only [word]
  rw [same 3 (by decide), same 2 (by decide), same 1 (by decide), first]

@[simp] theorem word_zero (offset : Nat) : zero.word offset = 0 := by
  simp only [word, zero]
  decide

@[simp] theorem word_setWord (bytes : Bytes) (offset : Nat) (value : Word) :
    (bytes.setWord offset value).word offset = value := by
  have one : offset + 1 ≠ offset := by omega
  have two : offset + 2 ≠ offset ∧ offset + 2 ≠ offset + 1 := by omega
  have three : offset + 3 ≠ offset ∧ offset + 3 ≠ offset + 1 ∧ offset + 3 ≠ offset + 2 := by omega
  simp only [word, setWord, one, two, three, ↓reduceIte]
  exact append_lanes value

/-- The value of a word from its bytes. -/
theorem toNat_word (bytes : Bytes) (offset : Nat) : (bytes.word offset).toNat =
    (((bytes (offset + 3)).toNat * 256 + (bytes (offset + 2)).toNat) * 256 + (bytes (offset + 1)).toNat) * 256 +
      (bytes offset).toNat := by
  rw [word, toNat_append_byte, toNat_append_byte, toNat_append_byte]

theorem setWord_outside (outside : place < offset ∨ offset + 4 ≤ place) :
    bytes.setWord offset value place = bytes place := by
  have zero : place ≠ offset := by omega
  have one : place ≠ offset + 1 := by omega
  have two : place ≠ offset + 2 := by omega
  have three : place ≠ offset + 3 := by omega
  simp only [setWord, zero, one, two, three, ↓reduceIte]

theorem setWord_same {first last : Nat} (apart : last ≤ offset ∨ offset + 4 ≤ first) :
    Same bytes (bytes.setWord offset value) first last := by
  intro place lower upper
  exact setWord_outside (by omega)

theorem word_setWord_of_apart {other : Nat} (apart : other + 4 ≤ offset ∨ offset + 4 ≤ other) :
    (bytes.setWord offset value).word other = bytes.word other :=
  Same.word (@setWord_same bytes offset value other (other + 4) (by omega)) (Nat.le_refl _) (Nat.le_refl _)

theorem copy_inside (lower : offset ≤ place) (upper : place < offset + length) :
    dest.copy offset source start length place = source (start + (place - offset)) := if_pos ⟨lower, upper⟩

theorem copy_outside (outside : place < offset ∨ offset + length ≤ place) :
    dest.copy offset source start length place = dest place := if_neg (by omega)

/-- The half word at an offset, least significant byte first. -/
def half (bytes : Bytes) (offset : Nat) : BitVec 16 := bytes (offset + 1) ++ bytes offset

def setHalf (bytes : Bytes) (offset : Nat) (value : BitVec 16) : Bytes := fun place =>
  if place = offset then value.extractLsb' 0 8
  else if place = offset + 1 then value.extractLsb' 8 8
  else bytes place

/-- A half word that is read and stored again takes its two bytes along. -/
theorem setHalf_half (dest source : Bytes) (offset start : Nat) :
    dest.setHalf offset (source.half start) = dest.copy offset source start 2 := by
  have whole : (source.half start).toNat = (source (start + 1)).toNat * 256 + (source start).toNat := toNat_append_byte _ _
  have bound := (source start).isLt
  have low : (source.half start).extractLsb' 0 8 = source start := by
    apply BitVec.eq_of_toNat_eq
    rw [BitVec.extractLsb'_toNat, whole, Nat.shiftRight_zero]
    omega
  have high : (source.half start).extractLsb' 8 8 = source (start + 1) := by
    have other := (source (start + 1)).isLt
    apply BitVec.eq_of_toNat_eq
    rw [BitVec.extractLsb'_toNat, whole, Nat.shiftRight_eq_div_pow]
    omega
  funext place
  rw [setHalf, low, high, copy]
  by_cases first : place = offset
  · rw [if_pos first, if_pos (by omega), first, Nat.sub_self, Nat.add_zero]
  · by_cases second : place = offset + 1
    · rw [if_neg first, if_pos second, if_pos (by omega), second, Nat.add_sub_cancel_left]
    · rw [if_neg first, if_neg second, if_neg (by omega)]

/-- Copies of neighbouring pieces make up one copy. -/
theorem copy_copy (dest source : Bytes) (offset start first second : Nat) :
    (dest.copy offset source start first).copy (offset + first) source (start + first) second =
      dest.copy offset source start (first + second) := by
  funext place
  simp only [copy]
  by_cases later : offset + first ≤ place ∧ place < offset + first + second
  · rw [if_pos later, if_pos (by omega)]
    congr 1
    omega
  · rw [if_neg later]
    by_cases early : offset ≤ place ∧ place < offset + first
    · rw [if_pos early, if_pos (by omega)]
    · rw [if_neg early, if_neg (by omega)]

/-- The first bytes of a buffer as a list. -/
def toList (bytes : Bytes) (length : Nat) : List Byte := (List.range length).map bytes

@[simp] theorem length_toList (bytes : Bytes) (length : Nat) : (bytes.toList length).length = length := by
  simp [toList]

theorem toList_congr {other : Bytes} {length : Nat} (same : Same bytes other 0 length) :
    other.toList length = bytes.toList length := by
  apply List.map_congr_left
  intro place inside
  exact same place (Nat.zero_le _) (List.mem_range.mp inside)

theorem take_toList (bytes : Bytes) (length count : Nat) : (bytes.toList length).take count = bytes.toList (min count length) := by
  rw [toList, ← List.map_take, List.take_range, toList]

/-- A byte that is stored behind the first ones is appended to them. -/
theorem toList_update (bytes : Bytes) (length : Nat) (byte : Byte) :
    toList (Function.update bytes length byte) (length + 1) = bytes.toList length ++ [byte] := by
  rw [toList, List.range_succ, List.map_append, List.map_singleton, Function.update_self]
  congr 1
  apply toList_congr
  intro place _ upper
  exact Function.update_of_ne (by omega) _ _

/-- Copying to the front replaces the first bytes. -/
theorem toList_copy_front (dest source : Bytes) (length : Nat) :
    (dest.copy 0 source 0 length).toList length = source.toList length := by
  apply toList_congr
  intro place _ upper
  rw [copy_inside (Nat.zero_le _) (by omega), Nat.sub_zero, Nat.zero_add]

/-- Copying behind the first bytes appends to them. -/
theorem toList_copy_behind (dest source : Bytes) (used length : Nat) :
    (dest.copy used source 0 length).toList (used + length) = dest.toList used ++ source.toList length := by
  rw [toList, List.range_add, List.map_append, List.map_map]
  congr 1
  · apply toList_congr
    intro place _ upper
    exact copy_outside (.inl upper)
  · apply List.map_congr_left
    intro place inside
    have bound := List.mem_range.mp inside
    rw [Function.comp_apply, copy_inside (by omega) (by omega), Nat.add_sub_cancel_left, Nat.zero_add]

end Bytes

end MexOS.Machine
