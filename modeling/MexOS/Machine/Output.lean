import MexOS.Machine.Bytes

/-! Buffers that are filled from the front. -/

namespace MexOS.Machine

/-- A buffer with the index that is written next. `written` are the indices that
were written so far. -/
structure Output where
  buffer : Bytes
  pos : Nat
  written : List Nat

namespace Output

def store (out : Output) (index : Nat) (byte : Byte) : Output :=
  { out with buffer := Function.update out.buffer index byte, written := index :: out.written }

/-- `buffer[pos++] = byte` -/
def put (out : Output) (byte : Byte) : Output := { out.store out.pos byte with pos := out.pos + 1 }

/-- `memcpy(buffer + pos, text, length)` and `pos += length`. -/
def append (out : Output) (text : List Byte) : Output := text.foldl put out

/-- `buffer[pos] = '\0'` -/
def terminate (out : Output) : Output := out.store out.pos 0

/-- The text has been written from the position on; the byte behind it may have
been written as well. -/
structure Extends (out : Output) (text : List Byte) (result : Output) : Prop where
  pos : result.pos = out.pos + text.length
  text : ∀ place (bound : place < text.length), result.buffer (out.pos + place) = text[place]
  before : ∀ place < out.pos, result.buffer place = out.buffer place
  written : ∀ index ∈ result.written, index ∈ out.written ∨ index ≤ result.pos

variable {out middle result : Output} {text more : List Byte}

theorem Extends.refl (out : Output) : Extends out [] out where
  pos := rfl
  text _ bound := absurd bound (Nat.not_lt_zero _)
  before _ _ := rfl
  written _ member := .inl member

theorem Extends.trans (first : Extends out text middle) (second : Extends middle more result) :
    Extends out (text ++ more) result := by
  have start := first.pos
  have ends := second.pos
  constructor
  · rw [List.length_append]
    omega
  · intro place bound
    rw [List.length_append] at bound
    by_cases early : place < text.length
    · rw [second.before _ (by omega), first.text place early, List.getElem_append_left early]
    · have later := second.text (place - text.length) (by omega)
      rw [List.getElem_append_right (by omega), ← later]
      congr 1
      omega
  · intro place bound
    rw [second.before place (by omega), first.before place bound]
  · intro index member
    rcases second.written index member with earlier | inside
    · rcases first.written index earlier with old | within
      · exact .inl old
      · exact .inr (by omega)
    · exact .inr inside

theorem extends_put (out : Output) (byte : Byte) : Extends out [byte] (out.put byte) where
  pos := rfl
  text place bound := by
    obtain rfl : place = 0 := by
      rw [List.length_singleton] at bound
      omega
    exact Function.update_self ..
  before place bound := Function.update_of_ne (Nat.ne_of_lt bound) ..
  written index member := by
    rcases List.mem_cons.mp member with rfl | old
    · exact .inr (Nat.le_succ _)
    · exact .inl old

theorem extends_append (out : Output) (text : List Byte) : Extends out text (out.append text) := by
  induction text generalizing out with
  | nil => exact .refl out
  | cons byte rest ih => exact (extends_put out byte).trans (ih (out.put byte))

/-- The terminator changes nothing in front of it. -/
theorem Extends.terminate (extends_ : Extends out text result) : Extends out text result.terminate where
  pos := extends_.pos
  text place bound := by
    have ends := extends_.pos
    rw [← extends_.text place bound]
    exact Function.update_of_ne (by omega) ..
  before place bound := by
    have ends := extends_.pos
    rw [← extends_.before place bound]
    exact Function.update_of_ne (by omega) ..
  written index member := by
    rcases List.mem_cons.mp member with rfl | old
    · exact .inr (Nat.le_refl _)
    · exact extends_.written index old

@[simp] theorem terminate_pos (out : Output) : out.terminate.pos = out.pos := rfl

theorem terminate_ends (out : Output) : out.terminate.buffer out.pos = 0 := Function.update_self ..

theorem mem_terminate (out : Output) : out.pos ∈ out.terminate.written := List.mem_cons_self

end Output

end MexOS.Machine
