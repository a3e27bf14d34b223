import MexOS.Ui.Shell
import MexOS.Machine.RecentRing
import Mathlib.Data.List.Destutter

/-! The history of the lines of `ui/shell.c`: after any keys, the rows are the
latest lines that were entered, without the empty ones and the repeats. -/

namespace MexOS.Ui

open MexOS.Machine

namespace Shell

/-- What the history is of the lines that have been entered. -/
def recorded (lines : List (List Byte)) : List (List Byte) :=
  (lines.filter fun line => line ≠ []).destutter (· ≠ ·)

section Lines

variable {α : Type*} [DecidableEq α]

theorem destutter'_concat (first : α) (items : List α) (item : α) :
    (items ++ [item]).destutter' (· ≠ ·) first =
      if (items.destutter' (· ≠ ·) first).getLast? = some item then items.destutter' (· ≠ ·) first
      else items.destutter' (· ≠ ·) first ++ [item] := by
  induction items generalizing first with
  | nil =>
    rw [List.nil_append, List.destutter'_singleton, List.destutter'_nil]
    by_cases same : first = item
    · simp [same]
    · simp [same]
  | cons head rest ih =>
    by_cases same : first = head
    · have dropped (later : List α) : (head :: later).destutter' (· ≠ ·) first = later.destutter' (· ≠ ·) first :=
        List.destutter'_cons_neg later (by simp [same])
      rw [List.cons_append, dropped, dropped]
      exact ih first
    · have kept (later : List α) : (head :: later).destutter' (· ≠ ·) first = first :: later.destutter' (· ≠ ·) head :=
        List.destutter'_cons_pos later same
      obtain ⟨next, more, shape⟩ := List.exists_cons_of_ne_nil (rest.destutter'_ne_nil (a := head) (R := (· ≠ ·)))
      rw [List.cons_append, kept, kept, ih head, shape, List.getLast?_cons_cons]
      split
      · rfl
      · rfl

theorem destutter_concat (items : List α) (item : α) :
    (items ++ [item]).destutter (· ≠ ·) =
      if (items.destutter (· ≠ ·)).getLast? = some item then items.destutter (· ≠ ·)
      else items.destutter (· ≠ ·) ++ [item] := by
  cases items with
  | nil => simp
  | cons first rest => exact destutter'_concat first rest item

end Lines

/-- A line is added unless it is empty or repeats the latest one. -/
theorem recorded_concat (lines : List (List Byte)) (line : List Byte) :
    recorded (lines ++ [line]) =
      if line = [] ∨ (recorded lines).getLast? = some line then recorded lines else recorded lines ++ [line] := by
  rw [recorded, List.filter_append]
  by_cases empty : line = []
  · rw [if_pos (.inl empty), empty]
    simp [recorded]
  · have kept : [line].filter (fun line => line ≠ []) = [line] := by simp [empty]
    rw [kept, destutter_concat, ← recorded]
    simp only [empty, false_or]

theorem length_recorded_le (lines : List (List Byte)) : (recorded lines).length ≤ lines.length :=
  (List.destutter_sublist _ _).length_le.trans (List.length_filter_le _ _)

/-- The line editor keeps to its buffer, and shows no zero. -/
structure Sane (s : Shell) : Prop where
  room : s.cmdPos ≤ 255
  shown : ∀ place < s.cmdPos, s.cmdBuffer place ≠ 0
  ends : s.cmdBuffer 255 = 0

/-- The lines the history has seen, of which it keeps the last 32. -/
structure Records (s : Shell) (lines : List (List Byte)) : Prop where
  count : s.historyCount.toNat = lines.length
  rows : RecentRing.Keeps historySize (fun row line => row = line ∧ line.length ≤ 255)
    ⟨fun idx => (s.row idx).bytes, s.historyCount.toNat % historySize, min s.historyCount.toNat historySize⟩ lines

/-- The keys end with the prompt of `shell_run`. -/
def FreshPrompt (keys : List Byte) : Prop := keys = [] ∨ keys.getLast? = some 10

variable {s : Shell}

/-- What holds after each of the things that a key can do. -/
theorem press_induction {P : Shell → Prop} {c : Byte} (enter : c = 10 → P s.enter) (erase : P s.erase) (up : P s.arrowUp)
    (down : P s.arrowDown) (home : P s.clearLine) (behind : P s.clearLine.showLine)
    (type : c ≠ 0 → s.cmdPos < 255 → P (s.type c)) (idle : P s) : P (s.press c) := by
  rw [press]
  split
  next newline => exact enter newline
  split
  · exact erase
  split
  · exact up
  split
  · exact down
  split
  · exact home
  split
  · exact behind
  split
  next printable =>
    refine type (fun zero => ?_) printable.2
    rw [zero] at printable
    exact absurd printable.1.1 (by decide)
  · exact idle

theorem run_concat (keys : List Byte) (c : Byte) : s.run (keys ++ [c]) = (s.run keys).press c := by
  rw [run, List.foldl_append]
  rfl

theorem run_append (keys later : List Byte) : s.run (keys ++ later) = (s.run keys).run later := List.foldl_append

theorem run_replicate (c : Byte) (count : Nat) : s.run (List.replicate count c) = (press · c)^[count] s := by
  induction count with
  | zero => rfl
  | succ count ih => rw [List.replicate_succ', run_concat, ih, Function.iterate_succ_apply']

theorem length_line_le (ends : s.cmdBuffer 255 = 0) : s.line.bytes.length ≤ 255 :=
  Bytes.text_length_le (by rw [Nat.zero_add]; exact ends)

/-- A line that ends where the cursor is. -/
theorem line_eq_visible (room : s.cmdPos ≤ 255) (shown : ∀ place < s.cmdPos, s.cmdBuffer place ≠ 0)
    (ends : s.cmdBuffer s.cmdPos = 0) : s.line.bytes = s.visible := by
  have clean : 0 ∉ s.visible := by
    intro zero
    obtain ⟨place, inside, zero⟩ := List.mem_map.mp zero
    exact shown place (List.mem_range.mp inside) zero
  apply Bytes.text_eq clean
  · rw [visible, Bytes.length_toList, cmdBufferSize]
    omega
  · intro place bound
    simp [visible, Bytes.toList]
  · rwa [visible, Bytes.length_toList, Nat.zero_add]

theorem showLine_sane (ends : s.cmdBuffer 255 = 0) : s.showLine.Sane where
  room := length_line_le ends
  shown place inside := by
    have here := @Bytes.text_getElem s.cmdBuffer 0 cmdBufferSize place inside
    rw [Nat.zero_add] at here
    intro zero
    have member : s.line.bytes[place] ∈ s.line.bytes := List.getElem_mem inside
    have byte : s.line.bytes[place] = 0 := here.trans zero
    exact s.line.terminated (byte ▸ member)
  ends := ends

theorem visible_showLine (s : Shell) : s.showLine.visible = s.line.bytes := s.cmdBuffer.toList_text cmdBufferSize

theorem recallLine_sane (source : CString) : (s.recallLine source).Sane :=
  showLine_sane (Function.update_self 255 0 (Lib.strncpy s.cmdBuffer 0 source.stored cmdBufferSize))

theorem text_strncpy (dest : Bytes) (source : CString) :
    Bytes.text (Function.update (Lib.strncpy dest 0 source.stored 256) 255 0) 0 256 = source.bytes.take 255 := by
  apply Bytes.text_eq
  · exact fun zero => source.terminated (List.mem_of_mem_take zero)
  · rw [List.length_take]
    omega
  · intro place bound
    rw [List.length_take] at bound
    have inside : place < source.bytes.length := by omega
    have stored : source.stored place = source.bytes[place] := List.getD_eq_getElem _ _ inside
    rw [Nat.zero_add, Function.update_of_ne (by omega), List.getElem_take, ← stored]
    by_cases short : source.bytes.length < 256
    · rw [Lib.strncpy_short (fun place => source.stored_lt) source.stored_end short,
        Bytes.copy_inside (Nat.zero_le _) (by omega), Nat.zero_add, Nat.sub_zero, if_pos inside]
    · rw [Lib.strncpy_long fun place bound => source.stored_lt (by omega),
        Bytes.copy_inside (Nat.zero_le _) (by omega), Nat.zero_add, Nat.sub_zero]
  · rw [Nat.zero_add, List.length_take]
    by_cases short : source.bytes.length < 255
    · rw [Nat.min_eq_right (by omega), Function.update_of_ne (by omega),
        Lib.strncpy_short (fun place => source.stored_lt) source.stored_end (by omega),
        Bytes.copy_inside (Nat.zero_le _) (by omega), Nat.zero_add, Nat.sub_zero, if_neg (Nat.lt_irrefl _)]
    · rw [Nat.min_eq_left (by omega), Function.update_self]

/-- The line that has been recalled. -/
theorem line_recallLine (source : CString) : (s.recallLine source).line.bytes = source.bytes.take 255 := text_strncpy _ source

theorem visible_recallLine (source : CString) : (s.recallLine source).visible = source.bytes.take 255 :=
  (visible_showLine _).trans (text_strncpy _ source)

theorem enter_sane (s : Shell) : s.enter.Sane where
  room := Nat.zero_le _
  shown place inside := absurd inside (Nat.not_lt_zero place)
  ends := rfl

theorem erase_sane (sane : s.Sane) : s.erase.Sane := by
  rw [erase]
  split
  · exact ⟨(Nat.sub_le _ _).trans sane.room, fun place inside => sane.shown place (Nat.lt_of_lt_pred inside), sane.ends⟩
  · exact sane

theorem type_sane (sane : s.Sane) {c : Byte} (nonzero : c ≠ 0) (room : s.cmdPos < 255) : (s.type c).Sane where
  room := room
  shown place inside := by
    change Function.update s.cmdBuffer s.cmdPos c place ≠ 0
    by_cases here : place = s.cmdPos
    · rwa [here, Function.update_self]
    · rw [Function.update_of_ne here]
      exact sane.shown place (Nat.lt_of_le_of_ne (Nat.lt_succ_iff.mp inside) here)
  ends := by
    change Function.update s.cmdBuffer s.cmdPos c 255 = 0
    rw [Function.update_of_ne (by omega)]
    exact sane.ends

theorem arrowUp_sane (sane : s.Sane) : s.arrowUp.Sane := by
  have kept : s.keepLine.Sane := by
    rw [keepLine]
    split
    · exact ⟨sane.room, sane.shown, sane.ends⟩
    · exact sane
  rw [arrowUp]
  split
  · exact sane
  · dsimp only
    split
    · exact recallLine_sane _
    · exact kept

theorem arrowDown_sane (sane : s.Sane) : s.arrowDown.Sane := by
  rw [arrowDown]
  split
  · exact sane
  · dsimp only
    split
    · exact recallLine_sane _
    · exact recallLine_sane _

theorem press_sane (sane : s.Sane) (c : Byte) : (s.press c).Sane := by
  apply press_induction
  · exact fun _ => enter_sane s
  · exact erase_sane sane
  · exact arrowUp_sane sane
  · exact arrowDown_sane sane
  · exact ⟨Nat.zero_le _, fun place inside => absurd inside (Nat.not_lt_zero place), sane.ends⟩
  · exact showLine_sane sane.ends
  · exact type_sane sane
  · exact sane

theorem run_sane (keys : List Byte) : (start.run keys).Sane := by
  induction keys using List.reverseRecOn with
  | nil => exact ⟨Nat.zero_le _, fun place inside => absurd inside (Nat.not_lt_zero place), rfl⟩
  | append_singleton keys c ih =>
    rw [run_concat]
    exact press_sane ih c

/-- Enter executes what is shown. -/
theorem line_enter (sane : s.Sane) :
    (stringAt (Function.update s.cmdBuffer s.cmdPos 0) 0).bytes = s.visible := by
  have same : Bytes.toList (Function.update s.cmdBuffer s.cmdPos 0) s.cmdPos = s.visible := by
    apply Bytes.toList_congr
    intro place _ inside
    rw [Function.update_of_ne inside.ne]
  rw [← same]
  apply @line_eq_visible { s with cmdBuffer := Function.update s.cmdBuffer s.cmdPos 0 } sane.room
  · intro place inside
    change Function.update s.cmdBuffer s.cmdPos 0 place ≠ 0
    rw [Function.update_of_ne (Nat.ne_of_lt inside)]
    exact sane.shown place inside
  · exact Function.update_self s.cmdPos 0 s.cmdBuffer

theorem row_setText {cmd : CString} {idx place : Nat} (short : cmd.bytes.length ≤ 255) :
    (row { s with history := Lib.setText s.history (cmdBufferSize * idx) cmd cmdBufferSize } place).bytes =
      if place = idx then cmd.bytes else (s.row place).bytes := by
  change Bytes.text _ _ _ = _
  by_cases here : place = idx
  · rw [if_pos here, here, Lib.text_setText (by decide), List.take_of_length_le (by rw [cmdBufferSize]; omega)]
  · rw [if_neg here]
    refine Bytes.text_congr fun byte lower upper => ?_
    dsimp only
    rw [Lib.setText_eq (by decide), Bytes.copy_outside]
    rw [cmdBufferSize] at *
    omega

section Records

variable {lines : List (List Byte)}

theorem Records.row_eq (records : s.Records lines) {i : Nat} (inside : i < lines.length)
    (recent : lines.length ≤ i + historySize) : (s.row (i % historySize)).bytes = lines[i] ∧ lines[i].length ≤ 255 :=
  records.rows.latest i inside recent

/-- The comparison in `history_add`. -/
theorem Records.repeated_iff (records : s.Records lines) (line : List Byte) :
    0 < s.historyCount ∧ (s.row ((s.historyCount - 1).toNat % historySize)).bytes = line ↔ lines.getLast? = some line := by
  have count := records.count
  by_cases none : lines = []
  · rw [none, List.length_nil] at count
    have zero : s.historyCount = 0 := BitVec.eq_of_toNat_eq count
    simp [none, zero]
  · have filled : 0 < lines.length := List.length_pos_iff.mpr none
    have positive : 0 < s.historyCount := BitVec.lt_def.mpr (by rw [count]; exact filled)
    have before : (s.historyCount - 1).toNat = lines.length - 1 := by
      rw [BitVec.toNat_sub_of_le (BitVec.le_def.mpr (by simp; omega)), count]
      rfl
    have shown := @Records.row_eq s lines records (lines.length - 1) (by omega) (by rw [historySize]; omega)
    rw [before, shown.1, List.getLast?_eq_some_getLast none, List.getLast_eq_getElem, Option.some_inj]
    exact and_iff_right positive

theorem historyAdd_records (records : s.Records lines) {cmd : CString} (short : cmd.bytes.length ≤ 255)
    (few : lines.length + 1 < 2 ^ 32) : (s.historyAdd cmd).Records
      (if cmd.bytes = [] ∨ lines.getLast? = some cmd.bytes then lines else lines ++ [cmd.bytes]) := by
  have repeated := records.repeated_iff cmd.bytes
  rw [historyAdd]
  split
  next empty =>
    rw [if_pos (.inl empty)]
    exact records
  next filled =>
    split
    next same =>
      rw [if_pos (.inr (repeated.mp same))]
      exact records
    next new =>
      rw [if_neg (not_or.mpr ⟨filled, fun last => new (repeated.mpr last)⟩)]
      have next : (s.historyCount + 1).toNat = s.historyCount.toNat + 1 := by
        rw [BitVec.toNat_add, records.count, Nat.mod_eq_of_lt (by simpa using few)]
        rfl
      refine ⟨?_, ?_⟩
      · rw [List.length_append, ← records.count]
        exact next
      · have pushed := @RecentRing.Keeps.push _ _ _ _ _ _ records.rows cmd.bytes cmd.bytes ⟨rfl, short⟩
        convert pushed using 1
        rw [RecentRing.push]
        congr 1
        · funext place
          rw [Function.update_apply]
          exact row_setText short
        · change (s.historyCount + 1).toNat % historySize = (s.historyCount.toNat % historySize + 1) % historySize
          rw [next, Nat.mod_add_mod]
        · change min (s.historyCount + 1).toNat historySize = _
          rw [next]
          simp only
          split <;> omega

theorem enter_records (sane : s.Sane) (records : s.Records lines) (few : lines.length + 1 < 2 ^ 32) :
    s.enter.Records (if s.visible = [] ∨ lines.getLast? = some s.visible then lines else lines ++ [s.visible]) := by
  have line := line_enter sane
  have short : s.visible.length ≤ 255 := by
    rw [visible, Bytes.length_toList]
    exact sane.room
  rw [← line] at short ⊢
  have terminated : Records { s.write (ascii "\n") with cmdBuffer := Function.update s.cmdBuffer s.cmdPos 0 } lines :=
    ⟨records.count, records.rows⟩
  have added := historyAdd_records terminated short few
  rw [enter]
  dsimp only
  split
  · exact ⟨added.count, added.rows⟩
  next empty =>
    rw [if_pos (.inl (not_not.mp empty))]
    exact ⟨records.count, records.rows⟩

theorem enter_executed (sane : s.Sane) : s.enter.executed = s.executed ++ [s.visible] := by
  have kept (t : Shell) (cmd : CString) : (t.historyAdd cmd).executed = t.executed := by
    rw [historyAdd]
    split
    · rfl
    · split
      · rfl
      · rfl
  rw [← line_enter sane, enter]
  dsimp only
  split
  · change (historyAdd _ _).executed ++ _ = _
    rw [kept]
    rfl
  · rfl

end Records

/-- The history and the lines that were executed are left alone. -/
structure SameHistory (s t : Shell) : Prop where
  history : t.history = s.history
  count : t.historyCount = s.historyCount
  executed : t.executed = s.executed

theorem SameHistory.records {t : Shell} (same : s.SameHistory t) {lines : List (List Byte)} (records : s.Records lines) :
    t.Records lines := by
  have rows : t.row = s.row := by
    funext idx
    rw [row, row, same.history]
  refine ⟨?_, ?_⟩
  · rw [same.count]
    exact records.count
  · rw [same.count, rows]
    exact records.rows

theorem arrowUp_sameHistory (s : Shell) : s.SameHistory s.arrowUp := by
  have kept : s.SameHistory s.keepLine := by
    rw [keepLine]
    split
    · exact ⟨rfl, rfl, rfl⟩
    · exact ⟨rfl, rfl, rfl⟩
  rw [arrowUp]
  split
  · exact ⟨rfl, rfl, rfl⟩
  · dsimp only
    split
    · exact ⟨kept.history, kept.count, kept.executed⟩
    · exact kept

theorem arrowDown_sameHistory (s : Shell) : s.SameHistory s.arrowDown := by
  rw [arrowDown]
  split
  · exact ⟨rfl, rfl, rfl⟩
  · dsimp only
    split
    · exact ⟨rfl, rfl, rfl⟩
    · exact ⟨rfl, rfl, rfl⟩

/-- Only Enter touches the history. -/
theorem press_sameHistory {c : Byte} (other : c ≠ 10) : s.SameHistory (s.press c) := by
  apply press_induction
  · exact fun newline => absurd newline other
  · rw [erase]
    split
    · exact ⟨rfl, rfl, rfl⟩
    · exact ⟨rfl, rfl, rfl⟩
  · exact arrowUp_sameHistory s
  · exact arrowDown_sameHistory s
  · exact ⟨rfl, rfl, rfl⟩
  · exact ⟨rfl, rfl, rfl⟩
  · exact fun _ _ => ⟨rfl, rfl, rfl⟩
  · exact ⟨rfl, rfl, rfl⟩

theorem press_records (sane : s.Sane) (records : s.executed.length < 2 ^ 32 → s.Records (recorded s.executed)) (c : Byte)
    (few : (s.press c).executed.length < 2 ^ 32) : (s.press c).Records (recorded (s.press c).executed) := by
  by_cases newline : c = 10
  · have pressed : s.press c = s.enter := if_pos newline
    rw [pressed, enter_executed sane] at few ⊢
    rw [List.length_append, List.length_singleton] at few
    rw [recorded_concat]
    have upper := length_recorded_le s.executed
    exact enter_records sane (records (by omega)) (by omega)
  · have same := press_sameHistory (s := s) newline
    rw [same.executed] at few ⊢
    exact same.records (records few)

theorem run_records (keys : List Byte) (few : (start.run keys).executed.length < 2 ^ 32) :
    (start.run keys).Records (recorded (start.run keys).executed) := by
  induction keys using List.reverseRecOn with
  | nil => exact ⟨rfl, .empty _⟩
  | append_singleton keys c ih =>
    rw [run_concat] at few ⊢
    exact press_records (run_sane keys) ih c few

theorem prompt_latest {keys : List Byte} (fresh : FreshPrompt keys) :
    (start.run keys).historyPos = (start.run keys).historyCount.toInt := by
  rcases fresh with rfl | last
  · rfl
  · obtain ⟨before, rfl⟩ := List.getLast?_eq_some_iff.mp last
    rw [run_concat]
    rfl

/-- How many lines the Up key can recall at the prompt. -/
def available (s : Shell) : Nat := (s.historyCount.toInt - s.oldest).toNat

theorem available_eq (few : s.historyCount.toNat < 2 ^ 31) : s.available = min 32 s.historyCount.toNat := by
  have whole : s.historyCount.toInt = s.historyCount.toNat := BitVec.toInt_eq_toNat_of_lt (by omega)
  rw [available, oldest, whole]
  split
  next many =>
    have lower : 32 < s.historyCount.toNat := BitVec.lt_def.mp many
    have rest : (s.historyCount - 32).toNat = s.historyCount.toNat - 32 :=
      BitVec.toNat_sub_of_le (BitVec.le_def.mpr (Nat.le_of_lt lower))
    rw [BitVec.toInt_eq_toNat_of_lt (by rw [rest]; omega), rest]
    omega
  next low =>
    have upper : s.historyCount.toNat ≤ 32 := Nat.not_lt.mp fun lower => low (BitVec.lt_def.mpr lower)
    have none : (0 : Word).toInt = 0 := rfl
    rw [none]
    omega

theorem SameHistory.oldest {t : Shell} (same : s.SameHistory t) : t.oldest = s.oldest := by
  rw [Shell.oldest, Shell.oldest, same.count]

theorem SameHistory.rowAt {t : Shell} (same : s.SameHistory t) (pos : Int) : t.rowAt pos = s.rowAt pos := by
  rw [Shell.rowAt, Shell.rowAt, row, row, same.history]

/-- `t` is `s` at its prompt after `k` times Up, with the line of `s` kept. -/
structure Browsing (s t : Shell) (k : Nat) : Prop where
  same : s.SameHistory t
  pos : t.historyPos = s.historyCount.toInt - k
  line : t.line.bytes = (s.rowAt (s.historyCount.toInt - k)).bytes.take 255
  temp : (stringAt t.tempBuffer 0).bytes = s.line.bytes

theorem text_keepLine (ends : s.cmdBuffer 255 = 0) :
    (stringAt (Lib.strncpy s.tempBuffer 0 s.line.stored cmdBufferSize) 0).bytes = s.line.bytes := by
  change Bytes.text (Lib.strncpy s.tempBuffer 0 s.line.stored 256) 0 256 = s.line.bytes
  have short := length_line_le ends
  have zero : Lib.strncpy s.tempBuffer 0 s.line.stored 256 255 = 0 := by
    rw [Lib.strncpy_short (fun place => s.line.stored_lt) s.line.stored_end (by omega),
      Bytes.copy_inside (Nat.zero_le _) (by omega)]
    simp only [Nat.sub_zero, Nat.zero_add]
    split
    next inside => omega
    · rfl
  have copied := text_strncpy s.tempBuffer s.line
  rwa [← zero, Function.update_eq_self, List.take_of_length_le short] at copied

theorem arrowUp_moves (some : s.historyCount ≠ 0) (older : s.oldest < s.historyPos) :
    s.arrowUp = { s.keepLine with historyPos := s.historyPos - 1 }.clearLine.recallLine (s.rowAt (s.historyPos - 1)) := by
  have kept : s.keepLine.oldest = s.oldest ∧ s.keepLine.historyPos = s.historyPos ∧
      s.keepLine.rowAt (s.historyPos - 1) = s.rowAt (s.historyPos - 1) := by
    rw [keepLine]
    split
    · exact ⟨rfl, rfl, rfl⟩
    · exact ⟨rfl, rfl, rfl⟩
  obtain ⟨oldest, pos, row⟩ := kept
  rw [arrowUp, if_neg some]
  dsimp only
  rw [oldest, pos, if_pos older]
  change recallLine _ (s.keepLine.rowAt (s.historyPos - 1)) = _
  rw [row]

theorem count_ne_zero (some : 0 < s.available) : s.historyCount ≠ 0 := by
  intro none
  rw [available, oldest, none] at some
  exact absurd some (by decide)

theorem arrowUp_browsing (ends : s.cmdBuffer 255 = 0) (prompt : s.historyPos = s.historyCount.toInt) (some : 0 < s.available) :
    s.Browsing s.arrowUp 1 := by
  have older : s.oldest < s.historyPos := by
    rw [prompt]
    rw [available] at some
    omega
  have moved := arrowUp_moves (count_ne_zero some) older
  rw [keepLine, if_pos prompt, prompt] at moved
  refine ⟨arrowUp_sameHistory s, ?_, ?_, ?_⟩
  · rw [moved]
    rfl
  · rw [moved]
    exact line_recallLine _
  · rw [moved]
    exact text_keepLine ends

theorem Browsing.arrowUp {t : Shell} {k : Nat} (browsing : s.Browsing t k) (positive : 0 < k) (more : k < s.available) :
    s.Browsing t.arrowUp (k + 1) := by
  have same := browsing.same
  have pos := browsing.pos
  rw [available] at more
  have older : t.oldest < t.historyPos := by
    rw [same.oldest, pos]
    omega
  have some : t.historyCount ≠ 0 := same.count ▸ count_ne_zero (s := s) (by rw [available]; omega)
  have moved := arrowUp_moves some older
  have elsewhere : t.historyPos ≠ t.historyCount.toInt := by
    rw [pos, same.count]
    omega
  have next : s.historyCount.toInt - k - 1 = s.historyCount.toInt - (k + 1 : Nat) := by omega
  rw [keepLine, if_neg elsewhere, pos, same.rowAt, next] at moved
  refine ⟨?_, ?_, ?_, ?_⟩
  · rw [moved]
    exact ⟨same.history, same.count, same.executed⟩
  · rw [moved]
    rfl
  · rw [moved]
    exact line_recallLine _
  · rw [moved]
    exact browsing.temp

/-- The keys from the prompt up to the oldest line. -/
theorem iterate_arrowUp (ends : s.cmdBuffer 255 = 0) (prompt : s.historyPos = s.historyCount.toInt) {k : Nat}
    (positive : 0 < k) (inside : k ≤ s.available) : s.Browsing (arrowUp^[k] s) k := by
  induction k, positive using Nat.le_induction with
  | base => exact arrowUp_browsing ends prompt inside
  | succ k positive ih =>
    rw [Function.iterate_succ_apply']
    exact (ih (Nat.le_of_succ_le inside)).arrowUp positive inside

/-- Up at the oldest line, or with no history, does nothing. -/
theorem Browsing.stops {t : Shell} (browsing : s.Browsing t s.available) (some : 0 < s.available) : t.arrowUp = t := by
  have pos := browsing.pos
  rw [available] at pos some
  have elsewhere : t.historyPos ≠ t.historyCount.toInt := by
    rw [pos, browsing.same.count]
    omega
  have last : ¬ t.oldest < t.historyPos := by
    rw [pos, browsing.same.oldest]
    omega
  rw [Shell.arrowUp]
  split
  · rfl
  · rw [keepLine, if_neg elsewhere]
    exact if_neg last

theorem run_ups (k : Nat) : s.run (List.replicate k keyArrowUp) = arrowUp^[k] s := by
  have pressed : (press · keyArrowUp) = arrowUp := rfl
  rw [run_replicate, pressed]

/-- The row at a position that has not gone out of the history. -/
theorem Records.rowAt_eq {lines : List (List Byte)} (records : s.Records lines) (few : lines.length < 2 ^ 31) {k : Nat}
    (positive : 0 < k) (inside : k ≤ min 32 lines.length) : ∃ bound : lines.length - k < lines.length,
      (s.rowAt (s.historyCount.toInt - k)).bytes.take 255 = lines[lines.length - k] := by
  have count := records.count
  have whole : s.historyCount.toInt = s.historyCount.toNat := BitVec.toInt_eq_toNat_of_lt (by omega)
  have place : (BitVec.ofInt 32 (s.historyCount.toInt - k)).toNat = lines.length - k := by
    rw [BitVec.toNat_ofInt, whole, count]
    omega
  have bound : lines.length - k < lines.length := by omega
  have shown := records.row_eq bound (by rw [historySize]; omega)
  refine ⟨bound, ?_⟩
  rw [rowAt, place, shown.1]
  exact List.take_of_length_le shown.2

/-- Up recalls the latest lines, one after the other, and stops behind 32 of
them. -/
structure RecallsLatest (s : Shell) (lines : List (List Byte)) : Prop where
  back : ∀ k, 1 ≤ k → k ≤ min 32 lines.length →
    lines[lines.length - k]? = some (s.run (List.replicate k keyArrowUp)).line.bytes
  stops : ∀ k, min 32 lines.length ≤ k →
    s.run (List.replicate k keyArrowUp) = s.run (List.replicate (min 32 lines.length) keyArrowUp)

theorem Records.recallsLatest {lines : List (List Byte)} (records : s.Records lines) (ends : s.cmdBuffer 255 = 0)
    (prompt : s.historyPos = s.historyCount.toInt) (few : lines.length < 2 ^ 31) : s.RecallsLatest lines := by
  have count := records.count
  have available : s.available = min 32 lines.length := by rw [available_eq (by omega), count]
  refine ⟨fun k positive inside => ?_, fun k beyond => ?_⟩
  · obtain ⟨bound, shown⟩ := records.rowAt_eq few positive inside
    have browsing := iterate_arrowUp ends prompt positive (available ▸ inside)
    rw [run_ups, browsing.line, shown, List.getElem?_eq_getElem bound]
  · have fixed : (arrowUp^[min 32 lines.length] s).arrowUp = arrowUp^[min 32 lines.length] s := by
      by_cases none : 0 < min 32 lines.length
      · rw [← available] at none ⊢
        exact (iterate_arrowUp ends prompt none (Nat.le_refl _)).stops none
      · have empty : lines.length = 0 := by omega
        have zero : s.historyCount = 0 := BitVec.eq_of_toNat_eq (count.trans empty)
        rw [Nat.eq_zero_of_not_pos none]
        exact if_pos zero
    obtain ⟨more, rfl⟩ := Nat.exists_eq_add_of_le' beyond
    rw [run_ups, run_ups, Function.iterate_add_apply, Function.iterate_fixed fixed]

/-- From a fresh prompt, Up goes back through the latest 32 lines that were
recorded. -/
theorem up_recalls (keys : List Byte) (fresh : FreshPrompt keys) (few : (start.run keys).executed.length < 2 ^ 31) :
    (start.run keys).RecallsLatest (recorded (start.run keys).executed) := by
  have upper := length_recorded_le (start.run keys).executed
  exact (run_records keys (by omega)).recallsLatest (run_sane keys).ends (prompt_latest fresh) (by omega)

def Printable (c : Byte) : Prop := 32 ≤ c ∧ c < 127

theorem press_printable {c : Byte} (printable : Printable c) (room : s.cmdPos < 255) : s.press c = s.type c := by
  have key {other : Byte} (outside : ¬ Printable other) : c ≠ other := by
    rintro rfl
    exact outside printable
  rw [press, if_neg (key (by rw [Printable]; decide)), if_neg (key (by rw [Printable]; decide)),
    if_neg (key (by rw [Printable]; decide)), if_neg (key (by rw [Printable]; decide)),
    if_neg (key (by rw [Printable]; decide)), if_neg (key (by rw [Printable]; decide))]
  exact if_pos ⟨printable, room⟩

theorem visible_type (s : Shell) (c : Byte) : (s.type c).visible = s.visible ++ [c] :=
  Bytes.toList_update s.cmdBuffer s.cmdPos c

/-- Typing puts the characters behind what is shown. -/
theorem run_printable (keys : List Byte) (printable : ∀ c ∈ keys, Printable c) (room : s.cmdPos + keys.length ≤ 255) :
    (s.run keys).visible = s.visible ++ keys ∧ (s.run keys).executed = s.executed := by
  induction keys generalizing s with
  | nil => exact ⟨(List.append_nil _).symm, rfl⟩
  | cons c rest ih =>
    rw [List.length_cons] at room
    have typed := press_printable (s := s) (printable c List.mem_cons_self) (by omega)
    have later := ih (s := s.type c) (fun c member => printable c (List.mem_cons_of_mem _ member)) (by
      change s.cmdPos + 1 + rest.length ≤ 255
      omega)
    rw [visible_type, List.append_assoc] at later
    rw [run, List.foldl_cons, typed]
    exact later

/-- Every sequence of lines can be entered. -/
theorem run_lines (lines : List (List Byte)) (printable : ∀ line ∈ lines, ∀ c ∈ line, Printable c)
    (short : ∀ line ∈ lines, line.length ≤ 255) :
    FreshPrompt (lines.flatMap fun line => line ++ [10]) ∧
      (start.run (lines.flatMap fun line => line ++ [10])).executed = lines ∧
      (start.run (lines.flatMap fun line => line ++ [10])).cmdPos = 0 := by
  induction lines using List.reverseRecOn with
  | nil => exact ⟨.inl rfl, rfl, rfl⟩
  | append_singleton lines line ih =>
    have earlier := ih (fun line member => printable line (List.mem_append_left _ member))
      fun line member => short line (List.mem_append_left _ member)
    obtain ⟨_, entered, home⟩ := earlier
    have last : line ∈ lines ++ [line] := List.mem_append_right _ List.mem_cons_self
    rw [List.flatMap_append, List.flatMap_singleton, ← List.append_assoc, run_concat]
    rw [run_append]
    generalize keys : (lines.flatMap fun line => line ++ [10]) = before at *
    have typed := @run_printable (start.run before) line (printable line last) (by
      rw [home, Nat.zero_add]
      exact short line last)
    have sane : ((start.run before).run line).Sane := run_append before line ▸ run_sane (before ++ line)
    have shown : (start.run before).visible = [] := by rw [visible, home]; rfl
    refine ⟨.inr (by simp), ?_, rfl⟩
    change (enter _).executed = _
    rw [enter_executed sane, typed.1, typed.2, entered, shown, List.nil_append]

/-- An empty line and a line that is entered twice. -/
theorem up_recalls_repeated :
    (start.run (ascii "ls\n\nps\nps\n")).RecallsLatest [ascii "ls", ascii "ps"] := by
  have entered := run_lines [ascii "ls", [], ascii "ps", ascii "ps"] (by simp only [Printable]; decide) (by decide)
  have keys : [ascii "ls", [], ascii "ps", ascii "ps"].flatMap (fun line => line ++ [10]) = ascii "ls\n\nps\nps\n" := by decide
  rw [keys] at entered
  have recalled := up_recalls (ascii "ls\n\nps\nps\n") entered.1 (by rw [entered.2.1]; decide)
  rwa [entered.2.1] at recalled

end Shell

end MexOS.Ui
