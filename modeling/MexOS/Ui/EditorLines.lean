import MexOS.Ui.EditorSession

/-! Adding a line and deleting the last one: where the search for the end of
the line before comes to an end. -/

namespace MexOS.Ui.Editor

open MexOS.Machine

/-- Nothing, or lines that all have their end. -/
def WholeLines (text : List Byte) : Prop := text = [] ∨ text.getLast? = some 10

section Search

variable {text line : List Byte}

theorem lineStart_whole (whole : WholeLines text) (rest : List Byte) : lineStart (text ++ rest) text.length = text.length := by
  rcases whole with rfl | ended
  · rfl
  · obtain ⟨front, rfl⟩ := List.getLast?_eq_some_iff.mp ended
    rw [List.length_append, List.length_singleton, lineStart, if_pos]
    simp [List.getD_eq_getElem?_getD]

/-- The search passes over the line. -/
theorem lineStart_line (whole : WholeLines text) (oneLine : 10 ∉ line) (rest : List Byte) {passed : Nat}
    (inside : passed ≤ line.length) : lineStart (text ++ line ++ rest) (text.length + passed) = text.length := by
  induction passed with
  | zero =>
    rw [List.append_assoc]
    exact lineStart_whole whole _
  | succ passed ih =>
    have here : (text ++ line ++ rest).getD (text.length + passed) 0 = (line)[passed] := by
      rw [List.append_assoc, List.getD_eq_getElem?_getD, List.getElem?_append_right (Nat.le_add_right _ _),
        Nat.add_sub_cancel_left, List.getElem?_append_left inside, List.getElem?_eq_getElem inside]
      rfl
    have other : (line)[passed] ≠ 10 := fun ended => oneLine (ended ▸ List.getElem_mem inside)
    rw [← Nat.add_assoc, lineStart, here, if_neg other]
    exact ih (Nat.le_of_succ_le inside)

/-- Where the last line starts, behind one that was added. A newline by itself is
not taken for the end of a line. -/
theorem lastLine_added (whole : WholeLines text) (oneLine : 10 ∉ line) :
    lastLine (text ++ line ++ [10]) = if text = [] ∧ line = [] then 1 else text.length := by
  have ended : (text ++ line ++ [10]).getD ((text ++ line ++ [10]).length - 1) 0 = 10 := by
    simp [List.getD_eq_getElem?_getD]
  have size : (text ++ line ++ [10]).length = text.length + line.length + 1 := by simp [Nat.add_assoc]
  rw [lastLine, ended]
  by_cases short : text = [] ∧ line = []
  · obtain ⟨rfl, rfl⟩ := short
    rfl
  · have more : 1 < (text ++ line ++ [10]).length := by
      rw [size]
      by_contra none
      exact short ⟨List.eq_nil_of_length_eq_zero (by omega), List.eq_nil_of_length_eq_zero (by omega)⟩
    rw [if_neg short, if_pos ⟨rfl, more⟩, size, Nat.add_sub_cancel]
    exact lineStart_line whole oneLine [10] (Nat.le_refl _)

end Search

section Calls

variable {editor : Editor} {line : CString}

theorem addLine_buffer (room : editor.buffer.text.length + line.bytes.length + 2 < editorMaxFileSize) :
    (editor.addLine line).buffer.text = editor.buffer.text ++ line.bytes ++ [10] :=
  (editor.addLine_text line).trans (if_pos room)

theorem deleteLastLine_size (some_text : editor.buffer.text ≠ []) :
    editor.deleteLastLine.bufferSize = lastLine editor.buffer.text := by
  rw [deleteLastLine, if_pos (List.length_pos_iff.mpr some_text), write]

/-- A line that was added and deleted again leaves the buffer as it was, unless
both the buffer and the line are empty: then a newline stays. -/
theorem deleteLastLine_addLine_iff (whole : WholeLines editor.buffer.text) (oneLine : 10 ∉ line.bytes)
    (room : editor.buffer.text.length + line.bytes.length + 2 < editorMaxFileSize) :
    ((editor.addLine line).deleteLastLine.buffer.text = editor.buffer.text ∧
      (editor.addLine line).deleteLastLine.bufferSize = editor.buffer.text.length) ↔
        ¬ (editor.buffer.text = [] ∧ line.bytes = []) := by
  have added := addLine_buffer room
  have filled : (editor.addLine line).buffer.text ≠ [] := by
    rw [added]
    exact List.append_ne_nil_of_right_ne_nil _ (List.cons_ne_nil _ _)
  rw [deleteLastLine_text, deleteLastLine_size filled, added, lastLine_added whole oneLine]
  by_cases empty : editor.buffer.text = [] ∧ line.bytes = []
  · rw [if_pos empty]
    refine iff_of_false ?_ (not_not.mpr empty)
    rintro ⟨_, size⟩
    rw [empty.1] at size
    exact absurd size (by decide)
  · rw [if_neg empty, List.append_assoc, List.take_left]
    exact iff_of_true ⟨rfl, rfl⟩ empty

theorem deleteLastLine_addLine_letter :
    ((fresh.addLine (CString.ofBytes (ascii "A"))).deleteLastLine.buffer.text = fresh.buffer.text ∧
      (fresh.addLine (CString.ofBytes (ascii "A"))).deleteLastLine.bufferSize = fresh.buffer.text.length) ↔
        ¬ (fresh.buffer.text = [] ∧ (CString.ofBytes (ascii "A")).bytes = []) :=
  have empty : fresh.buffer.text = [] := EditorBuffer.text_zero
  deleteLastLine_addLine_iff (.inl empty) (by decide) (by rw [empty]; decide)

/-- The empty line in an empty buffer. -/
theorem empty_line_stays :
    (fresh.addLine (CString.ofBytes [])).deleteLastLine.buffer.text = [10] ∧ fresh.buffer.text = [] := by
  have empty : fresh.buffer.text = [] := EditorBuffer.text_zero
  have added : (fresh.addLine (CString.ofBytes [])).buffer.text = [10] :=
    (addLine_buffer (by rw [empty]; decide)).trans (by rw [empty]; rfl)
  rw [deleteLastLine_text, added]
  exact ⟨rfl, empty⟩

end Calls

end MexOS.Ui.Editor
