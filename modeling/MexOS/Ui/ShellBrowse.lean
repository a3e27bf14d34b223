import MexOS.Ui.ShellHistory

/-! What becomes of the line that is being typed while the history is browsed.
Up keeps the string in the buffer, and that can be longer than what is shown. -/

namespace MexOS.Ui

open MexOS.Machine

namespace Shell

/-- The keys that change the line at the prompt. -/
def EditingKey (c : Byte) : Prop := Printable c ∨ c = 8 ∨ c = keyHome ∨ c = keyEnd

/-- As often Down as Up, and then Enter. -/
def BrowsingKeeps (s : Shell) (j : Nat) : Prop :=
  let browsed := s.run (List.replicate j keyArrowUp ++ List.replicate j keyArrowDown)
  browsed.visible = s.visible ∧ (browsed.press 10).executed = s.executed ++ [s.visible]

variable {s t : Shell}

theorem press_editing {c : Byte} (editing : EditingKey c) :
    s.SameHistory (s.press c) ∧ (s.press c).historyPos = s.historyPos := by
  have printable (other : Byte) (outside : ¬ EditingKey other) : c ≠ other := by
    rintro rfl
    exact outside editing
  rw [press, if_neg (printable 10 (by simp only [EditingKey, Printable]; decide))]
  split
  · rw [erase]
    split
    · exact ⟨⟨rfl, rfl, rfl⟩, rfl⟩
    · exact ⟨⟨rfl, rfl, rfl⟩, rfl⟩
  rw [if_neg (printable keyArrowUp (by simp only [EditingKey, Printable]; decide)),
    if_neg (printable keyArrowDown (by simp only [EditingKey, Printable]; decide))]
  split
  · exact ⟨⟨rfl, rfl, rfl⟩, rfl⟩
  split
  · exact ⟨⟨rfl, rfl, rfl⟩, rfl⟩
  split
  · exact ⟨⟨rfl, rfl, rfl⟩, rfl⟩
  · exact ⟨⟨rfl, rfl, rfl⟩, rfl⟩

/-- Editing stays at the prompt. -/
theorem run_editing (edits : List Byte) (editing : ∀ c ∈ edits, EditingKey c)
    (prompt : s.historyPos = s.historyCount.toInt) : (s.run edits).historyPos = (s.run edits).historyCount.toInt := by
  induction edits using List.reverseRecOn with
  | nil => exact prompt
  | append_singleton edits c ih =>
    obtain ⟨same, pos⟩ := @press_editing (s.run edits) c (editing c (List.mem_append_right _ List.mem_cons_self))
    rw [run_concat, pos, same.count]
    exact ih fun c member => editing c (List.mem_append_left _ member)

theorem run_downs (k : Nat) : s.run (List.replicate k keyArrowDown) = arrowDown^[k] s := by
  have pressed : (press · keyArrowDown) = arrowDown := rfl
  rw [run_replicate, pressed]

/-- Down to a line of the history. -/
theorem Browsing.arrowDown {k : Nat} (browsing : s.Browsing t (k + 1)) (positive : 0 < k) (some : 0 < s.available) :
    s.Browsing t.arrowDown k := by
  have same := browsing.same
  have pos := browsing.pos
  have next : s.historyCount.toInt - (k + 1 : Nat) + 1 = s.historyCount.toInt - k := by omega
  have moved : t.arrowDown =
      { t with historyPos := s.historyCount.toInt - k }.clearLine.recallLine (s.rowAt (s.historyCount.toInt - k)) := by
    rw [Shell.arrowDown, if_neg]
    · dsimp only
      rw [pos, next, if_neg]
      · change recallLine _ (t.rowAt (s.historyCount.toInt - k)) = _
        rw [same.rowAt]
      · change ¬ t.historyCount.toInt ≤ s.historyCount.toInt - k
        rw [same.count]
        omega
    · rw [pos, same.count, not_or]
      exact ⟨count_ne_zero some, by omega⟩
  rw [moved]
  exact ⟨⟨same.history, same.count, same.executed⟩, rfl, line_recallLine _, browsing.temp⟩

/-- Down to the line that was kept. -/
theorem Browsing.restore (browsing : s.Browsing t 1) (some : 0 < s.available) :
    s.SameHistory t.arrowDown ∧ t.arrowDown.Sane ∧ t.arrowDown.visible = s.line.bytes.take 255 := by
  have same := browsing.same
  have pos := browsing.pos
  have moved : t.arrowDown =
      { t with historyPos := t.historyPos + 1 }.clearLine.recallLine (stringAt t.tempBuffer 0) := by
    rw [Shell.arrowDown, if_neg]
    · dsimp only
      rw [if_pos]
      · rfl
      · change t.historyCount.toInt ≤ t.historyPos + 1
        rw [pos, same.count]
        omega
    · rw [pos, same.count, not_or]
      exact ⟨count_ne_zero some, by omega⟩
  rw [moved]
  refine ⟨⟨same.history, same.count, same.executed⟩, recallLine_sane _, ?_⟩
  rw [visible_recallLine, browsing.temp]

/-- The keys back to the prompt. -/
theorem iterate_arrowDown {k : Nat} (browsing : s.Browsing t (k + 1)) (some : 0 < s.available) :
    s.SameHistory (Shell.arrowDown^[k + 1] t) ∧ (Shell.arrowDown^[k + 1] t).Sane ∧
      (Shell.arrowDown^[k + 1] t).visible = s.line.bytes.take 255 := by
  induction k generalizing t with
  | zero => exact browsing.restore some
  | succ k ih => exact ih (browsing.arrowDown (Nat.succ_pos k) some)

/-- Browsing shows the string of the buffer in place of the line. -/
theorem run_browsing (sane : s.Sane) (prompt : s.historyPos = s.historyCount.toInt) {j : Nat} (positive : 1 ≤ j)
    (inside : j ≤ s.available) :
    (s.run (List.replicate j keyArrowUp ++ List.replicate j keyArrowDown)).visible = s.line.bytes ∧
      ((s.run (List.replicate j keyArrowUp ++ List.replicate j keyArrowDown)).press 10).executed =
        s.executed ++ [s.line.bytes] := by
  have some : 0 < s.available := positive.trans inside
  obtain ⟨k, rfl⟩ := Nat.exists_eq_add_of_le' positive
  obtain ⟨same, later, shown⟩ := iterate_arrowDown (iterate_arrowUp sane.ends prompt positive inside) some
  rw [List.take_of_length_le (length_line_le sane.ends)] at shown
  rw [run_append, run_ups, run_downs]
  refine ⟨shown, ?_⟩
  change (enter _).executed = _
  rw [enter_executed later, same.executed, shown]

theorem line_eq_iff (sane : s.Sane) : s.line.bytes = s.visible ↔ s.cmdBuffer s.cmdPos = 0 := by
  constructor
  · intro same
    have short : s.line.bytes.length < cmdBufferSize := (length_line_le sane.ends).trans_lt (by decide)
    have stop := Bytes.text_short short
    change s.cmdBuffer (0 + s.line.bytes.length) = 0 at stop
    rwa [same, visible, Bytes.length_toList, Nat.zero_add] at stop
  · exact line_eq_visible sane.room sane.shown

/-- Browsing gives the line back if and only if nothing is left in the buffer
behind it. -/
theorem browsing_keeps_iff (keys edits : List Byte) (fresh : FreshPrompt keys) (editing : ∀ c ∈ edits, EditingKey c)
    (j : Nat) (positive : 1 ≤ j) (inside : j ≤ (start.run (keys ++ edits)).available) :
    (start.run (keys ++ edits)).BrowsingKeeps j ↔
      (start.run (keys ++ edits)).cmdBuffer (start.run (keys ++ edits)).cmdPos = 0 := by
  have sane := run_sane (keys ++ edits)
  have prompt : (start.run (keys ++ edits)).historyPos = (start.run (keys ++ edits)).historyCount.toInt := by
    rw [run_append]
    exact run_editing edits editing (prompt_latest fresh)
  obtain ⟨shown, executed⟩ := run_browsing sane prompt positive inside
  rw [BrowsingKeeps, ← line_eq_iff sane, shown, executed]
  constructor
  · exact And.left
  · intro same
    exact ⟨same, by rw [same]⟩

/-- A character that was typed and erased again. -/
theorem browsing_keeps_letter : (start.run (ascii "a\n" ++ ascii "b\x08b")).BrowsingKeeps 1 := by
  have editing : ∀ c ∈ ascii "b\x08b", EditingKey c := by simp only [EditingKey, Printable]; decide
  exact (browsing_keeps_iff (ascii "a\n") (ascii "b\x08b") (.inr rfl) editing 1 (Nat.le_refl 1) (by decide +kernel)).mpr
    (by decide +kernel)

/-- An erased character comes back. -/
theorem browsing_restores_erased : ¬ ∀ keys edits : List Byte, FreshPrompt keys → (∀ c ∈ edits, EditingKey c) →
    ∀ j, 1 ≤ j → j ≤ (start.run (keys ++ edits)).available → (start.run (keys ++ edits)).BrowsingKeeps j := by
  intro claim
  have editing : ∀ c ∈ ascii "ab\x08", EditingKey c := by simp only [EditingKey, Printable]; decide
  have some : 1 ≤ (start.run (ascii "a\n" ++ ascii "ab\x08")).available := by decide +kernel
  have kept := claim (ascii "a\n") (ascii "ab\x08") (.inr rfl) editing 1 (Nat.le_refl 1) some
  have shown : (start.run (ascii "a\n" ++ ascii "ab\x08")).visible ≠
      ((start.run (ascii "a\n" ++ ascii "ab\x08")).run
        (List.replicate 1 keyArrowUp ++ List.replicate 1 keyArrowDown)).visible := by decide +kernel
  exact shown kept.1.symm

end Shell

end MexOS.Ui
