import MexOS.Fs.InodeTable
import MexOS.Ui.Editor

/-! What a line that is typed into the editor does to its buffer, and which
lines end the loop. -/

namespace MexOS.Ui

open MexOS.Machine MexOS.Fs

theorem TypedLine.type_printable (line : TypedLine) {key : Byte} (visible : 32 ≤ key ∧ key < 127)
    (fits : line.bytes.length < editorLineSize - 1) :
    (line.type key).1.bytes = line.bytes ++ [key] ∧ (line.type key).2 = [key] := by
  have other : key ≠ 8 := by
    rintro rfl
    exact absurd visible.1 (by decide)
  rw [type, if_neg other, dif_pos ⟨visible, fits⟩]
  exact ⟨rfl, rfl⟩

/-- The loop reads what is typed. -/
theorem readLine_keys (rest keys : List Byte) (line : TypedLine) (console : List Byte)
    (visible : ∀ byte ∈ rest, 32 ≤ byte ∧ byte < 127) (fits : line.bytes.length + rest.length < editorLineSize) :
    ∃ whole : TypedLine, whole.bytes = line.bytes ++ rest ∧
      readLine (rest ++ 10 :: keys) line console = some (whole, keys, console ++ rest ++ [10]) := by
  induction rest generalizing line console with
  | nil => exact ⟨line, (List.append_nil _).symm, by simp [readLine]⟩
  | cons key rest ih =>
    obtain ⟨printable, others⟩ := List.forall_mem_cons.mp visible
    rw [List.length_cons] at fits
    have limit : editorLineSize = 256 := rfl
    obtain ⟨bytes, echo⟩ := line.type_printable printable (by omega)
    have apart : key ≠ 10 := by
      rintro rfl
      exact absurd printable.1 (by decide)
    obtain ⟨whole, same, read⟩ := ih (line.type key).1 (console ++ [key]) others
      (by rw [bytes, List.length_append, List.length_singleton]; omega)
    refine ⟨whole, ?_, ?_⟩
    · rw [same, bytes, List.append_assoc, List.singleton_append]
    · rw [List.cons_append, readLine, if_neg apart, echo, read, List.append_assoc console, List.singleton_append]

/-- Every line can be typed. -/
theorem readLine_types (line : TypedLine) (keys console : List Byte) :
    readLine (line.bytes ++ 10 :: keys) TypedLine.empty console = some (line, keys, console ++ line.bytes ++ [10]) := by
  obtain ⟨whole, same, read⟩ := readLine_keys line.bytes keys TypedLine.empty console line.printable
    (by simpa [TypedLine.empty] using line.short)
  rw [read, TypedLine.ext same]

namespace EditorBuffer

@[simp] theorem text_zero : zero.text = [] := by
  rw [text]
  exact Bytes.text_nil (by decide) rfl

theorem text_append (buffer : EditorBuffer) (line : CString)
    (room : buffer.text.length + line.bytes.length + 2 < editorMaxFileSize) :
    (buffer.append line room).text = buffer.text ++ line.bytes ++ [10] := by
  have first := @Lib.text_strcat buffer.bytes line editorMaxFileSize (by rw [text] at room; omega)
  have size : newline.bytes.length = 1 := rfl
  rw [text, append]
  dsimp only
  rw [Lib.text_strcat, first]
  · rfl
  · rw [first, List.length_append]
    rw [text] at room
    omega

theorem text_terminate (buffer : EditorBuffer) {place : Nat} (inside : place < editorMaxFileSize)
    (within : place ≤ buffer.text.length) : (terminate buffer.bytes inside).text = buffer.text.take place := by
  have size : (buffer.text.take place).length = place := by rw [List.length_take, Nat.min_eq_left within]
  change Bytes.text (Function.update buffer.bytes place 0) 0 editorMaxFileSize = _
  apply Bytes.text_eq
  · exact fun zero => Bytes.text_clean _ _ _ (List.mem_of_mem_take zero)
  · rwa [size]
  · intro index bound
    rw [size] at bound
    have same := @Bytes.text_getElem buffer.bytes 0 editorMaxFileSize index (bound.trans_le within)
    rw [Nat.zero_add] at same ⊢
    rw [Function.update_of_ne bound.ne, List.getElem_take]
    exact same.symm
  · rw [Nat.zero_add, size, Function.update_self]

end EditorBuffer

namespace Editor

/-- A terminator cuts the text, wherever it ended before. -/
theorem terminate_text (bytes : Bytes) {place : Nat} (inside : place < editorMaxFileSize) :
    (EditorBuffer.terminate bytes inside).text = bytes.text 0 place := by
  have size := bytes.text_length 0 place
  change Bytes.text (Function.update bytes place 0) 0 editorMaxFileSize = _
  apply Bytes.text_eq (Bytes.text_clean _ _ _) (size.trans_lt inside)
  · intro index bound
    rw [Nat.zero_add, Function.update_of_ne (bound.trans_le size).ne, Bytes.text_getElem, Nat.zero_add]
  · rw [Nat.zero_add]
    rcases Nat.lt_or_eq_of_le size with before | same
    · rw [Function.update_of_ne before.ne]
      have ends := Bytes.text_short before
      rwa [Nat.zero_add] at ends
    · rw [same, Function.update_self]

/-- The loop goes on as before, and so does the buffer. -/
structure Undisturbed (before after : Editor) : Prop where
  running : after.running = before.running
  buffer : after.buffer = before.buffer

section Undisturbed

variable {editor after : Editor}

theorem write_undisturbed (editor : Editor) (text : List Byte) : Undisturbed editor (editor.write text) := ⟨rfl, rfl⟩

theorem save_undisturbed {ambient : Ambient} {ret : Int} (call : editor.save ambient = some (ret, after)) :
    Undisturbed editor after := by
  obtain ⟨⟨code, files⟩, _, call⟩ := Option.bind_eq_some_iff.mp call
  dsimp only at call
  split at call
  · obtain ⟨_, rfl⟩ := Prod.mk.inj (Option.some.inj call)
    exact ⟨rfl, rfl⟩
  · obtain ⟨_, rfl⟩ := Prod.mk.inj (Option.some.inj call)
    exact ⟨rfl, rfl⟩

theorem setMode_undisturbed (editor : Editor) (mode : Byte) : Undisturbed editor (editor.setMode mode) := by
  rw [setMode]
  split
  · dsimp only
    split
    · exact ⟨rfl, rfl⟩
    · split
      · exact ⟨rfl, rfl⟩
      · split
        · exact ⟨rfl, rfl⟩
        · exact ⟨rfl, rfl⟩
  · exact ⟨rfl, rfl⟩

theorem runBasic_undisturbed {fuel : Nat} (call : editor.runBasic fuel = some after) : Undisturbed editor after := by
  rw [runBasic] at call
  split at call
  · obtain rfl := Option.some.inj call
    exact ⟨rfl, rfl⟩
  · obtain ⟨basic, _, call⟩ := Option.bind_eq_some_iff.mp call
    obtain rfl := Option.some.inj call
    exact ⟨rfl, rfl⟩

theorem listBasic_undisturbed (editor : Editor) : Undisturbed editor editor.listBasic := by
  rw [listBasic]
  split
  · exact ⟨rfl, rfl⟩
  · exact ⟨rfl, rfl⟩

end Undisturbed

/-- A line leads from one state to another. -/
def Entered (line : TypedLine) (before after : Editor) : Prop :=
  ∃ fuel ambient, enterLine fuel ambient line.text before = some after

/-- The commands that leave the editor: `:q` without changes, `:q!` and
`:wq`. -/
def Quits (line : TypedLine) (before : Editor) : Prop :=
  (line.bytes = ascii ":q" ∧ before.modified = false) ∨ line.bytes = ascii ":q!" ∨ line.bytes = ascii ":wq"

/-- The buffer is the same, has the line at its end, is empty or has lost its
last line. -/
def Edited (line : TypedLine) (before after : Editor) : Prop :=
  let text := before.buffer.text
  after.buffer.text = text ∨ after.buffer.text = text ++ line.bytes ++ [10] ∨ after.buffer.text = [] ∨
    after.buffer.text = text.take (lastLine text)

section Steps

variable {editor after : Editor} {line : TypedLine}

theorem Undisturbed.edited (same : Undisturbed editor after) : Edited line editor after :=
  .inl (congrArg EditorBuffer.text same.buffer)

theorem Edited.congr {other : Editor} (edited : Edited line other after) (same : other.buffer = editor.buffer) :
    Edited line editor after := by
  rw [Edited, same] at edited
  exact edited

theorem deleteLastLine_text (editor : Editor) :
    editor.deleteLastLine.buffer.text = editor.buffer.text.take (lastLine editor.buffer.text) := by
  rw [deleteLastLine]
  split
  · exact editor.buffer.text_terminate ((lastLine_le _).trans_lt editor.buffer.terminated) (lastLine_le _)
  · next empty =>
    have none : editor.buffer.text = [] := List.eq_nil_of_length_eq_zero (by omega)
    change editor.buffer.text = _
    rw [none]
    rfl

theorem addLine_running (editor : Editor) (line : CString) : (editor.addLine line).running = editor.running := by
  rw [addLine]
  split
  · rfl
  · rfl

theorem addLine_text (editor : Editor) (line : CString) : (editor.addLine line).buffer.text =
    if editor.buffer.text.length + line.bytes.length + 2 < editorMaxFileSize then
      editor.buffer.text ++ line.bytes ++ [10] else editor.buffer.text := by
  rw [addLine]
  split
  · next room => exact EditorBuffer.text_append _ _ room
  · rfl

theorem addLine_edited (editor : Editor) (line : TypedLine) : Edited line editor (editor.addLine line.text) := by
  have text := editor.addLine_text line.text
  split at text
  · exact .inr (.inl text)
  · exact .inl text

/-- Whatever the command, its code is that of the end. -/
theorem handleCommand_spec {ambient : Ambient} {ret : Int} (call : editor.handleCommand ambient = some (ret, after)) :
    ret = editorCmdQuit ∧ (after.buffer.text = editor.buffer.text ∨
      after.buffer.text = editor.buffer.text.take (lastLine editor.buffer.text)) := by
  have kept {state : Editor} {code : Int} (same : Undisturbed editor state) (quit : code = editorCmdQuit)
      (result : (code, state) = (ret, after)) :
      ret = editorCmdQuit ∧ (after.buffer.text = editor.buffer.text ∨
        after.buffer.text = editor.buffer.text.take (lastLine editor.buffer.text)) := by
    obtain ⟨rfl, rfl⟩ := Prod.mk.inj result
    exact ⟨quit, .inl (congrArg EditorBuffer.text same.buffer)⟩
  have saved {code : Int} (quit : code = editorCmdQuit)
      (result : ((editor.save ambient).bind fun saved => some (code, saved.2)) = some (ret, after)) :
      ret = editorCmdQuit ∧ (after.buffer.text = editor.buffer.text ∨
        after.buffer.text = editor.buffer.text.take (lastLine editor.buffer.text)) := by
    obtain ⟨⟨_, state⟩, save, result⟩ := Option.bind_eq_some_iff.mp result
    exact kept (save_undisturbed save) quit (Option.some.inj result)
  rw [handleCommand] at call
  generalize (if editor.lineBuffer.bytes.head? = some 58 then editor.lineBuffer.bytes.tail
    else editor.lineBuffer.bytes) = cmd at call
  by_cases q : cmd = ascii "q"
  · rw [if_pos q] at call
    -- With changes a warning comes first.
    by_cases changed : editor.modified = true
    · rw [if_pos changed] at call
      exact kept (write_undisturbed _ _) rfl (Option.some.inj call)
    · rw [if_neg changed] at call
      exact kept ⟨rfl, rfl⟩ rfl (Option.some.inj call)
  rw [if_neg q] at call
  by_cases force : cmd = ascii "q!"
  · rw [if_pos force] at call
    exact kept ⟨rfl, rfl⟩ rfl (Option.some.inj call)
  rw [if_neg force] at call
  by_cases w : cmd = ascii "w"
  · rw [if_pos w] at call
    exact saved rfl call
  rw [if_neg w] at call
  by_cases wq : cmd = ascii "wq"
  · rw [if_pos wq] at call
    exact saved rfl call
  rw [if_neg wq] at call
  by_cases d : cmd = ascii "d"
  · rw [if_pos d] at call
    obtain ⟨rfl, rfl⟩ := Prod.mk.inj (Option.some.inj call)
    exact ⟨rfl, .inr (deleteLastLine_text _)⟩
  rw [if_neg d] at call
  by_cases p : cmd = ascii "p"
  · rw [if_pos p] at call
    exact kept (write_undisturbed _ _) rfl (Option.some.inj call)
  rw [if_neg p] at call
  by_cases h : cmd = ascii "h" ∨ cmd = ascii "help"
  · rw [if_pos h] at call
    exact kept (write_undisturbed _ _) rfl (Option.some.inj call)
  rw [if_neg h] at call
  by_cases mode : (ascii "mode ").isPrefixOf cmd = true
  · rw [if_pos mode] at call
    generalize (cmd.drop 5).dropWhile (fun byte => byte = 32) = name at call
    by_cases text : name = ascii "text"
    · rw [if_pos text] at call
      exact kept (setMode_undisturbed _ _) rfl (Option.some.inj call)
    rw [if_neg text] at call
    by_cases basic : name = ascii "basic"
    · rw [if_pos basic] at call
      exact kept (setMode_undisturbed _ _) rfl (Option.some.inj call)
    rw [if_neg basic] at call
    by_cases hex : name = ascii "hex"
    · rw [if_pos hex] at call
      exact kept (setMode_undisturbed _ _) rfl (Option.some.inj call)
    rw [if_neg hex] at call
    exact kept (write_undisturbed _ _) rfl (Option.some.inj call)
  rw [if_neg mode] at call
  exact kept (write_undisturbed _ _) rfl (Option.some.inj call)

theorem enterBasic_spec {fuel : Nat} (call : editor.enterBasic fuel = some after)
    (typed : editor.lineBuffer = line.text) : after.running = editor.running ∧ Edited line editor after := by
  have same (undisturbed : Undisturbed editor after) : after.running = editor.running ∧ Edited line editor after :=
    ⟨undisturbed.running, undisturbed.edited⟩
  rw [enterBasic] at call
  split at call
  · exact same (runBasic_undisturbed call)
  · split at call
    · obtain rfl := Option.some.inj call
      exact same (listBasic_undisturbed _)
    · split at call
      · obtain rfl := Option.some.inj call
        exact ⟨rfl, .inr (.inr (.inl EditorBuffer.text_zero))⟩
      · split at call
        · next lineNum text _ =>
          generalize editor.basic.addLine lineNum text = added at call
          obtain ⟨ret, basic⟩ := added
          dsimp only at call
          split at call
          · obtain rfl := Option.some.inj call
            have edited := addLine_edited { editor with basic } line
            rw [← typed] at edited
            exact ⟨addLine_running _ _, edited.congr rfl⟩
          · obtain rfl := Option.some.inj call
            exact same ⟨rfl, rfl⟩
        · obtain ⟨⟨ret, basic⟩, _, call⟩ := Option.bind_eq_some_iff.mp call
          dsimp only at call
          split at call
          · obtain rfl := Option.some.inj call
            exact same ⟨rfl, rfl⟩
          · obtain rfl := Option.some.inj call
            exact same ⟨rfl, rfl⟩

/-- The loop ends exactly after the lines that begin with a colon. -/
theorem entered_spec (entered : Entered line editor after) (running : editor.running = true) :
    (after.running = false ↔ line.bytes.head? = some 58) ∧ Edited line editor after := by
  obtain ⟨fuel, ambient, call⟩ := entered
  rw [enterLine] at call
  by_cases colon : line.text.bytes.head? = some 58
  · rw [if_pos colon] at call
    obtain ⟨⟨ret, state⟩, handled, call⟩ := Option.bind_eq_some_iff.mp call
    obtain ⟨rfl, text⟩ := handleCommand_spec handled
    obtain rfl := Option.some.inj call
    exact ⟨iff_of_true rfl colon, text.imp_right fun cut => .inr (.inr cut)⟩
  · rw [if_neg colon] at call
    have goesOn {state : Editor} (kept : state.running = true) (edited : Edited line editor state)
        (result : state.write (ascii "> ") = after) :
        (after.running = false ↔ line.bytes.head? = some 58) ∧ Edited line editor after := by
      obtain rfl := result
      refine ⟨iff_of_false ?_ colon, edited⟩
      rw [write, kept]
      exact Bool.noConfusion
    split at call
    · obtain ⟨state, basic, call⟩ := Option.bind_eq_some_iff.mp call
      obtain ⟨kept, edited⟩ := enterBasic_spec basic rfl
      exact goesOn (kept.trans running) edited (Option.some.inj call)
    · have edited := addLine_edited { editor with lineBuffer := line.text } line
      have kept := addLine_running { editor with lineBuffer := line.text } line.text
      exact goesOn (kept.trans running) (edited.congr rfl) (Option.some.inj call)

end Steps

/-- A line that was entered, with the states before and after it. -/
structure Turn where
  before : Editor
  line : TypedLine
  after : Editor

/-- The turns of the loop of `editor_run`, while it goes on. -/
inductive Session : Editor → List Turn → Prop
  | waiting (editor : Editor) : Session editor []
  | next {turn : Turn} {rest : List Turn} (running : turn.before.running = true)
      (entered : Entered turn.line turn.before turn.after) (later : Session turn.after rest) :
      Session turn.before (turn :: rest)

theorem Session.turns {editor : Editor} {session : List Turn} (typed : Session editor session) :
    ∀ turn ∈ session, turn.before.running = true ∧ Entered turn.line turn.before turn.after := by
  induction typed with
  | waiting editor => exact fun _ member => absurd member List.not_mem_nil
  | next running entered later ih => exact List.forall_mem_cons.mpr ⟨⟨running, entered⟩, ih⟩

/-- In every session the loop ends only after the commands that leave the editor,
if and only if no other line begins with a colon. The buffer is edited in each
case. -/
theorem editor_exits_iff {editor : Editor} {session : List Turn} (typed : Session editor.start session) :
    (∀ turn ∈ session, (turn.after.running = false → Quits turn.line turn.before) ∧
      Edited turn.line turn.before turn.after) ↔
    ∀ turn ∈ session, turn.line.bytes.head? = some 58 → Quits turn.line turn.before := by
  refine forall_congr' fun turn => forall_congr' fun member => ?_
  obtain ⟨running, entered⟩ := typed.turns turn member
  obtain ⟨ends, edited⟩ := entered_spec entered running
  rw [ends, and_iff_left edited]

/-- The editor after `editor_init`, over an empty file system. -/
def fresh : Editor :=
  init ⟨CString.ofBytes [], EditorBuffer.zero, CString.ofBytes [], 0, 0, false, false, Basic.zero,
    FileSystem.init (Diskfs.uniform 0)⟩

def quitLine : TypedLine := ⟨ascii ":q", by decide, by decide⟩

theorem editor_exits_iff_unchanged : ∃ after, Session fresh.start [⟨fresh.start, quitLine, after⟩] ∧
    ∀ turn ∈ [Turn.mk fresh.start quitLine after], (turn.after.running = false → Quits turn.line turn.before) ∧
      Edited turn.line turn.before turn.after := by
  obtain ⟨after, call⟩ := Option.isSome_iff_exists.mp
    (show (enterLine 0 Ambient.zero quitLine.text fresh.start).isSome = true by decide +kernel)
  have session := @Session.next ⟨fresh.start, quitLine, after⟩ [] rfl ⟨0, Ambient.zero, call⟩ (.waiting after)
  refine ⟨after, session, (editor_exits_iff session).mpr fun turn member _ => ?_⟩
  rw [List.mem_singleton.mp member]
  exact .inl ⟨rfl, rfl⟩

/-- The same with a change that has not been saved. -/
def changed : Editor := { fresh with modified := true }

/-- `:q` warns of unsaved changes and leaves the editor. -/
theorem editor_exits_with_changes : ∃ after, Session changed.start [⟨changed.start, quitLine, after⟩] ∧
    after.running = false ∧ ¬ Quits quitLine changed.start := by
  have unsaved : changed.start.modified = true := by decide +kernel
  obtain ⟨after, call⟩ := Option.isSome_iff_exists.mp
    (show (enterLine 0 Ambient.zero quitLine.text changed.start).isSome = true by decide +kernel)
  have entered : Entered quitLine changed.start after := ⟨0, Ambient.zero, call⟩
  refine ⟨after, @Session.next ⟨changed.start, quitLine, after⟩ [] rfl entered (.waiting after),
    (entered_spec entered rfl).1.mpr (by decide), ?_⟩
  rintro (⟨_, unchanged⟩ | force | saved)
  · rw [unsaved] at unchanged
    cases unchanged
  · exact absurd force (by decide)
  · exact absurd saved (by decide)

end Editor

end MexOS.Ui
