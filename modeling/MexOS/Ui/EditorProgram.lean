import MexOS.Machine.Transition
import MexOS.Ui.BasicStore
import MexOS.Ui.EditorSession

/-! The program of the interpreter against the buffer of the editor: which
actions keep both in step. -/

namespace MexOS.Ui.Editor

open MexOS.Machine MexOS.Fs

section Lines

variable {room : Nat} {text more line : List Byte}

/-- What the loop goes on with behind a line. -/
def afterLine (rest : List Byte) : List Byte := if rest.head? = some 10 then rest.tail else rest

theorem takeLine_length (room : Nat) (text : List Byte) :
    (takeLine room text).1.length + (takeLine room text).2.length = text.length := by
  induction room generalizing text with
  | zero => rw [takeLine, List.length_nil, Nat.zero_add]
  | succ room ih =>
    cases text with
    | nil => rfl
    | cons byte text =>
      rw [takeLine]
      split
      · rw [List.length_nil, Nat.zero_add]
      · rw [List.length_cons, List.length_cons, ← ih text]
        dsimp only
        omega

theorem afterLine_le (rest : List Byte) : (afterLine rest).length ≤ rest.length := by
  rw [afterLine]
  split
  · rw [List.length_tail]
    exact Nat.sub_le _ _
  · exact Nat.le_refl _

/-- Each turn takes a byte. -/
theorem afterLine_lt (positive : 0 < room) (some_ : text ≠ []) :
    (afterLine (takeLine room text).2).length < text.length := by
  obtain ⟨room, rfl⟩ := Nat.exists_eq_succ_of_ne_zero positive.ne'
  cases text with
  | nil => exact absurd rfl some_
  | cons byte text =>
    rw [takeLine]
    split
    · next newline =>
      rw [afterLine, if_pos (by rw [List.head?_cons, newline]), List.tail_cons]
      exact Nat.lt_succ_self _
    · have size := takeLine_length room text
      have rest := afterLine_le (takeLine room text).2
      rw [List.length_cons]
      dsimp only
      omega

/-- More turns than bytes find no more lines. -/
theorem bufferLines_enough (turns other : Nat) (text : List Byte) (enough : text.length ≤ turns)
    (enoughToo : text.length ≤ other) : bufferLines turns text = bufferLines other text := by
  induction turns generalizing other text with
  | zero =>
    have none : text = [] := List.eq_nil_of_length_eq_zero (by omega)
    cases other with
    | zero => rfl
    | succ other => rw [none, bufferLines, bufferLines, if_pos rfl]
  | succ turns ih =>
    rw [bufferLines]
    split
    · next none =>
      cases other with
      | zero => rfl
      | succ other => rw [bufferLines, if_pos none]
    · next some_ =>
      cases other with
      | zero => exact absurd (List.eq_nil_of_length_eq_zero (by omega)) some_
      | succ other =>
        have less := @afterLine_lt (editorLineSize - 1) text (by decide) some_
        rw [bufferLines, if_neg some_]
        exact congrArg _ (ih other _ (by rw [← afterLine]; omega) (by rw [← afterLine]; omega))

/-- All lines of a text. -/
def linesOf (text : List Byte) : List (List Byte) := bufferLines text.length text

theorem linesOf_step (some_ : text ≠ []) :
    linesOf text = (takeLine (editorLineSize - 1) text).1 :: linesOf (afterLine (takeLine (editorLineSize - 1) text).2) := by
  have less := @afterLine_lt (editorLineSize - 1) text (by decide) some_
  obtain ⟨turns, size⟩ := Nat.exists_eq_succ_of_ne_zero (List.length_pos_iff.mpr some_).ne'
  rw [linesOf, linesOf, size, bufferLines, if_neg some_]
  exact congrArg _ (bufferLines_enough _ _ _ (by rw [← afterLine]; omega) (Nat.le_refl _))

/-- It is empty or ends with a newline. -/
def Whole (text : List Byte) : Prop := text = [] ∨ text.getLast? = some 10

/-- A line that ends before the text does is the same with more behind it. -/
theorem takeLine_append (text more : List Byte) (ends : (takeLine room text).2 ≠ []) :
    takeLine room (text ++ more) = ((takeLine room text).1, (takeLine room text).2 ++ more) := by
  induction room generalizing text with
  | zero => rfl
  | succ room ih =>
    cases text with
    | nil => exact absurd rfl ends
    | cons byte text =>
      rw [takeLine] at ends ⊢
      rw [List.cons_append, takeLine]
      split
      · rfl
      · next other =>
        rw [if_neg other] at ends
        rw [ih text ends]

/-- What is left of such a text is not empty. -/
theorem takeLine_rest (some_ : text ≠ []) (last : text.getLast? = some 10) (room : Nat) :
    (takeLine room text).2 ≠ [] ∧ (takeLine room text).2.getLast? = some 10 := by
  induction room generalizing text with
  | zero => exact ⟨some_, last⟩
  | succ room ih =>
    cases text with
    | nil => exact absurd rfl some_
    | cons byte text =>
      rw [takeLine]
      split
      · exact ⟨List.cons_ne_nil _ _, last⟩
      · next other =>
        cases text with
        | nil =>
          rw [List.getLast?_singleton] at last
          exact absurd (Option.some.inj last) other
        | cons next text =>
          rw [List.getLast?_cons_cons] at last
          exact ih (List.cons_ne_nil _ _) last

theorem afterLine_append (some_ : text ≠ []) (more : List Byte) :
    afterLine (text ++ more) = afterLine text ++ more := by
  cases text with
  | nil => exact absurd rfl some_
  | cons byte text =>
    rw [List.cons_append, afterLine, afterLine, List.head?_cons, List.head?_cons]
    split
    · rfl
    · rfl

theorem afterLine_whole (last : text.getLast? = some 10) : Whole (afterLine text) := by
  rw [afterLine]
  split
  · cases text with
    | nil => exact .inl rfl
    | cons byte text =>
      cases text with
      | nil => exact .inl rfl
      | cons next text =>
        rw [List.getLast?_cons_cons] at last
        exact .inr last
  · exact .inr last

theorem linesOf_append (whole : Whole text) (more : List Byte) :
    linesOf (text ++ more) = linesOf text ++ linesOf more := by
  generalize size : text.length = bytes
  induction bytes using Nat.strongRecOn generalizing text with
  | ind bytes ih =>
    rcases whole with rfl | last
    · rfl
    · have some_ : text ≠ [] := by
        rintro rfl
        cases last
      obtain ⟨rest, ends⟩ := takeLine_rest some_ last (editorLineSize - 1)
      have less := @afterLine_lt (editorLineSize - 1) text (by decide) some_
      rw [linesOf_step some_, linesOf_step (List.append_ne_nil_of_left_ne_nil some_ more), takeLine_append text more rest]
      rw [afterLine_append rest, ih _ (size ▸ less) (afterLine_whole ends) rfl, List.cons_append]

theorem takeLine_short (clean : 10 ∉ line) (fits : line.length ≤ room) (rest : List Byte) :
    takeLine room (line ++ 10 :: rest) = (line, 10 :: rest) := by
  induction room generalizing line with
  | zero =>
    obtain rfl : line = [] := List.eq_nil_of_length_eq_zero (by omega)
    rfl
  | succ room ih =>
    cases line with
    | nil => rfl
    | cons byte line =>
      rw [List.mem_cons, not_or] at clean
      rw [List.cons_append, takeLine, if_neg (Ne.symm clean.1), ih clean.2 (by rw [List.length_cons] at fits; omega)]

theorem linesOf_line (clean : 10 ∉ line) (fits : line.length < editorLineSize) : linesOf (line ++ [10]) = [line] := by
  rw [linesOf_step (by simp), takeLine_short clean (Nat.le_sub_one_of_lt fits)]
  rfl

end Lines

/-- The lines of a text that begin with a number. -/
def numberedLines (text : List Byte) : List (Word × CString) := (linesOf text).filterMap numberedLine

/-- What the interpreter stores of a text. -/
def loaded (text : List Byte) : List (Nat × List Byte) := Basic.enterAll [] (numberedLines text)

theorem loadBuffer_eq (basic : Basic) (text : List Byte) : loadBuffer basic text = basic.addAll (numberedLines text) := by
  rw [loadBuffer, Basic.addAll, numberedLines, List.foldl_filterMap, ← linesOf]
  congr 1
  funext basic line
  cases numberedLine line with
  | none => rfl
  | some call => rfl

theorem loadBuffer_listing (basic : Basic) (text : List Byte) :
    (loadBuffer basic.clearProgram text).listing = loaded text ∧ Basic.Terminated (loaded text) := by
  have empty : basic.clearProgram.listing = [] := rfl
  have terminated : Basic.Terminated basic.clearProgram.listing := by
    rw [empty]
    exact fun _ member => absurd member List.not_mem_nil
  have stored := Basic.addAll_listing terminated (numberedLines text)
  rw [loadBuffer_eq]
  rw [empty, ← loaded] at stored
  exact ⟨stored.1, stored.1 ▸ stored.2⟩

/-- In BASIC mode the interpreter has the program of the buffer. -/
def InStep (editor : Editor) : Prop :=
  editor.mode = editorModeBasic → editor.basic.listing = loaded editor.buffer.text

/-- The text that `editor_open` reads from a file. -/
def fileText (files : FileSystem) (ambient : Ambient) (filename : CString) : List Byte :=
  if files.fsExists filename ∧ ¬ files.isDir filename then
    match files.read filename ambient Bytes.zero 4095 with
    | some (ret, bytes, _) => bytes.text 0 ret.toNat
    | none => []
  else []

section Steps

variable {editor after : Editor}

theorem openFile_spec {ambient : Ambient} {filename : CString} {mode : Byte} {ret : Int}
    (call : editor.openFile ambient (some filename) mode = some (ret, after)) :
    after.mode = mode ∧ after.basic.listing = editor.basic.listing ∧
      after.buffer.text = fileText editor.files ambient filename := by
  rw [openFile] at call
  dsimp only at call
  rw [fileText]
  by_cases known : editor.files.fsExists filename = true
  · rw [if_pos known] at call
    by_cases dir : editor.files.isDir filename = true
    · rw [if_pos dir] at call
      obtain ⟨_, rfl⟩ := Prod.mk.inj (Option.some.inj call)
      rw [if_neg fun both => both.2 dir]
      exact ⟨rfl, rfl, EditorBuffer.text_zero⟩
    · rw [if_neg dir] at call
      obtain ⟨⟨code, bytes, files⟩, read, call⟩ := Option.bind_eq_some_iff.mp call
      have length : (if code < 0 then 0 else code.toNat) = code.toNat := by
        split <;> omega
      have found : editor.files.read filename ambient Bytes.zero 4095 = some (code, bytes, files) := read
      rw [if_pos ⟨known, dir⟩, found]
      dsimp only at call ⊢
      by_cases inside : (if code < 0 then 0 else code.toNat) < editorMaxFileSize
      · rw [dif_pos inside] at call
        obtain ⟨_, rfl⟩ := Prod.mk.inj (Option.some.inj call)
        exact ⟨rfl, rfl, (terminate_text bytes inside).trans (by rw [length])⟩
      · rw [dif_neg inside] at call
        cases call
  · rw [if_neg known] at call
    obtain ⟨⟨code, files⟩, _, call⟩ := Option.bind_eq_some_iff.mp call
    rw [if_neg fun both => known both.1]
    dsimp only at call
    split at call
    · obtain ⟨_, rfl⟩ := Prod.mk.inj (Option.some.inj call)
      exact ⟨rfl, rfl, EditorBuffer.text_zero⟩
    · obtain ⟨_, rfl⟩ := Prod.mk.inj (Option.some.inj call)
      exact ⟨rfl, rfl, EditorBuffer.text_zero⟩

/-- Mode, buffer and program are the same. -/
structure Silent (before after : Editor) : Prop where
  mode : after.mode = before.mode
  buffer : after.buffer = before.buffer
  listing : after.basic.listing = before.basic.listing

theorem Silent.inStep (silent : Silent editor after) (inStep : InStep editor) : InStep after := by
  rw [InStep, silent.mode, silent.buffer, silent.listing]
  exact inStep

theorem Silent.trans {later : Editor} (silent : Silent editor after) (next : Silent after later) : Silent editor later :=
  ⟨next.mode.trans silent.mode, next.buffer.trans silent.buffer, next.listing.trans silent.listing⟩

theorem write_silent (editor : Editor) (text : List Byte) : Silent editor (editor.write text) := ⟨rfl, rfl, rfl⟩

theorem drawHeader_silent (editor : Editor) : Silent editor editor.drawHeader := by
  rw [drawHeader]
  exact write_silent _ _

theorem drawStatus_silent (editor : Editor) : Silent editor editor.drawStatus := by
  rw [drawStatus]
  exact write_silent _ _

theorem start_silent (editor : Editor) : Silent editor editor.start := by
  have cleared : Silent editor ({ editor with running := true } : Editor).clearScreen := ⟨rfl, rfl, rfl⟩
  have drawn := (cleared.trans (drawHeader_silent _)).trans (drawStatus_silent _)
  rw [start]
  generalize ({ editor with running := true } : Editor).clearScreen.drawHeader.drawStatus = shown at drawn ⊢
  have ruled := drawn.trans (write_silent shown (ascii "---\n"))
  generalize shown.write (ascii "---\n") = state at ruled ⊢
  exact ruled.trans (write_silent state _)

theorem setMode_inStep (inStep : InStep editor) (mode : Byte) : InStep (editor.setMode mode) := by
  rw [setMode]
  split
  · dsimp only
    split
    · have program := loadBuffer_listing editor.basic editor.buffer.text
      generalize loadBuffer editor.basic.clearProgram editor.buffer.text = basic at program ⊢
      have reloaded : InStep { editor with mode, modified := true, basic } := fun _ => program.1
      exact (write_silent _ _).inStep reloaded
    · next other =>
      have vacuous : InStep { editor with mode, modified := true } := fun basic => absurd basic other
      split
      · exact (write_silent _ _).inStep vacuous
      · split
        · exact (write_silent _ _).inStep vacuous
        · exact vacuous
  · exact inStep

theorem handleCommand_delete (command : editor.lineBuffer.bytes = ascii ":d") (ambient : Ambient) :
    editor.handleCommand ambient = some (0, editor.deleteLastLine) := by
  rw [handleCommand, command]
  generalize cmd : (if (ascii ":d").head? = some 58 then (ascii ":d").tail else ascii ":d") = name
  have same : name = ascii "d" := by rw [← cmd]; decide
  rw [same, if_neg (by decide), if_neg (by decide), if_neg (by decide), if_neg (by decide), if_pos rfl]

theorem begins_otherwise {word line : List Byte} {letter byte : Byte} (begins : word.head? = some letter)
    (first : line.head? = some byte) (apart : letter ≠ byte) : ¬ word.isPrefixOf line = true := by
  cases word with
  | nil => cases begins
  | cons head rest =>
    cases line with
    | nil => cases first
    | cons other more =>
      obtain rfl := Option.some.inj begins
      obtain rfl := Option.some.inj first
      rw [List.isPrefixOf_cons_cons, Bool.and_eq_true, beq_iff_eq]
      exact fun both => apart both.1

/-- The words that are commands in BASIC mode begin with letters. -/
theorem no_word {bytes : List Byte} {byte : Byte} (first : bytes.head? = some byte) (low : byte < 58) :
    ¬ (ascii "RUN").isPrefixOf bytes = true ∧ ¬ (ascii "LIST").isPrefixOf bytes = true ∧
      ¬ (ascii "CLEAR").isPrefixOf bytes = true := by
  have other {word : List Byte} {letter : Byte} (begins : word.head? = some letter) (high : 58 ≤ letter) :
      ¬ word.isPrefixOf bytes = true := by
    refine begins_otherwise begins first ?_
    rintro rfl
    bv_omega
  exact ⟨other rfl (by decide), other rfl (by decide), other rfl (by decide)⟩

theorem skipSpaces_cases (bytes : List Byte) :
    skipSpaces bytes = bytes ∨ ∃ blank, bytes.head? = some blank ∧ (blank = 32 ∨ blank = 9) := by
  cases bytes with
  | nil => exact .inl rfl
  | cons head rest =>
    by_cases blank : head = 32 ∨ head = 9
    · exact .inr ⟨head, rfl, blank⟩
    · rw [skipSpaces, List.dropWhile_cons_of_neg (by simpa using blank)]
      exact .inl rfl

theorem numberedLine_digit {bytes : List Byte} {stored : Word × CString} (numbered : numberedLine bytes = some stored) :
    ∃ digit, (skipSpaces bytes).head? = some digit ∧ isDigit digit = true := by
  induction bytes with
  | nil => cases numbered
  | cons head rest ih =>
    by_cases blank : head = 32
    · rw [numberedLine, List.dropWhile_cons_of_pos (by simpa using blank), ← numberedLine] at numbered
      rw [skipSpaces, List.dropWhile_cons_of_pos (by simp [blank])]
      exact ih numbered
    · rw [numberedLine, List.dropWhile_cons_of_neg (by simpa using blank)] at numbered
      split at numbered
      · next digit =>
        have apart : ¬ (head = 32 ∨ head = 9) := by
          rintro (rfl | rfl)
          · exact blank rfl
          · cases digit
        rw [skipSpaces, List.dropWhile_cons_of_neg (by simpa using apart)]
        exact ⟨head, rfl, digit⟩
      · cases numbered

/-- Numbered lines begin with a blank or a digit. -/
theorem numberedLine_head {bytes : List Byte} {stored : Word × CString} (numbered : numberedLine bytes = some stored) :
    ∃ byte, bytes.head? = some byte ∧ byte < 58 := by
  obtain ⟨digit, first, decimal⟩ := numberedLine_digit numbered
  rcases skipSpaces_cases bytes with same | ⟨blank, here, rfl | rfl⟩
  · rw [same] at first
    rw [isDigit, decide_eq_true_eq] at decimal
    exact ⟨digit, first, by bv_omega⟩
  · exact ⟨32, here, by decide⟩
  · exact ⟨9, here, by decide⟩

theorem clear_head {bytes : List Byte} (word : (ascii "CLEAR").isPrefixOf (skipSpaces bytes) = true) :
    ∃ byte, bytes.head? = some byte ∧ byte ≠ 58 := by
  obtain ⟨rest, shape⟩ := List.isPrefixOf_iff_prefix.mp word
  rcases skipSpaces_cases bytes with same | ⟨blank, here, rfl | rfl⟩
  · refine ⟨67, ?_, by decide⟩
    rw [← same, ← shape]
    rfl
  · exact ⟨32, here, by decide⟩
  · exact ⟨9, here, by decide⟩

theorem executeLine_clear {bytes : List Byte} (word : (ascii "CLEAR").isPrefixOf (skipSpaces bytes) = true)
    (fuel : Nat) (basic : Basic) : basic.executeLine fuel bytes = some (0, basic.clearProgram) := by
  obtain ⟨rest, shape⟩ := List.isPrefixOf_iff_prefix.mp word
  have first : (skipSpaces bytes).head? = some 67 := by
    rw [← shape]
    rfl
  have second : (skipSpaces (skipSpaces bytes).tail).headD 0 ≠ 61 := by
    rw [← shape]
    exact (by decide : (76 : Byte) ≠ 61)
  rw [Basic.executeLine, Basic.executeLineWith]
  rw [if_neg, if_neg (begins_otherwise rfl first (by decide)), if_neg (begins_otherwise rfl first (by decide)),
    if_neg fun assigned => second assigned.2, if_neg (begins_otherwise rfl first (by decide)),
    if_neg (begins_otherwise rfl first (by decide)), if_pos word]
  intro none
  rw [none] at first
  cases first

/-- In another mode the line goes into the buffer alone. -/
theorem entered_cases {line : TypedLine} (entered : Entered line editor after)
    (plain : line.bytes.head? ≠ some 58) :
    (editor.mode ≠ editorModeBasic ∧ after.mode = editor.mode) ∨ (editor.mode = editorModeBasic ∧ ∃ fuel state,
      enterBasic fuel { editor with lineBuffer := line.text } = some state ∧ Silent state after) := by
  obtain ⟨fuel, ambient, call⟩ := entered
  rw [enterLine, if_neg (show line.text.bytes.head? ≠ some 58 from plain)] at call
  dsimp only at call
  split at call
  · next mode =>
    obtain ⟨state, basic, call⟩ := Option.bind_eq_some_iff.mp call
    obtain rfl := Option.some.inj call
    exact .inr ⟨mode, fuel, state, basic, write_silent _ _⟩
  · next other =>
    obtain rfl := Option.some.inj call
    refine .inl ⟨other, ?_⟩
    rw [write, addLine]
    split
    · rfl
    · rfl

/-- So in BASIC mode alone the program can get out of step. -/
theorem entered_inStep {line : TypedLine} {byte : Byte} (entered : Entered line editor after)
    (first : line.bytes.head? = some byte) (plain : byte ≠ 58)
    (program : editor.mode = editorModeBasic → ∀ fuel state,
      enterBasic fuel { editor with lineBuffer := line.text } = some state → state.basic.listing = loaded state.buffer.text) :
    InStep after := by
  have other : line.bytes.head? ≠ some 58 := by
    rw [first]
    exact fun same => plain (Option.some.inj same)
  rcases entered_cases entered other with ⟨other, mode⟩ | ⟨basic, fuel, state, call, silent⟩
  · exact fun basic => absurd (mode.symm.trans basic) other
  · exact silent.inStep fun _ => program basic fuel state call

/-- The line becomes the last one. -/
theorem loaded_line {text : List Byte} (whole : Whole text) (line : TypedLine) {call : Word × CString}
    (numbered : numberedLine line.bytes = some call) :
    loaded (text ++ line.bytes ++ [10]) = Basic.entered (loaded text) call.1.toNat (call.2.bytes.take 127) := by
  have clean : 10 ∉ line.bytes := fun member => absurd (line.printable 10 member).1 (by decide)
  rw [loaded, numberedLines, List.append_assoc, linesOf_append whole, linesOf_line clean line.short,
    List.filterMap_append, Basic.enterAll, List.foldl_append, List.filterMap_cons, numbered]
  rfl

theorem addLine_code (basic : Basic) (lineNum : Word) (line : CString) :
    (basic.addLine lineNum line).1 = 0 ∨ (basic.addLine lineNum line).2 = basic := by
  rw [Basic.addLine]
  split
  · exact .inr rfl
  · split
    · exact .inl rfl
    · exact .inl rfl

theorem addLine_basic (editor : Editor) (line : CString) : (editor.addLine line).basic.listing = editor.basic.listing := by
  rw [addLine]
  split
  · rfl
  · rfl

theorem numbered_program {fuel : Nat} {line : TypedLine} {stored : Word × CString}
    (numbered : numberedLine line.bytes = some stored) (call : editor.enterBasic fuel = some after)
    (typed : editor.lineBuffer = line.text) (program : editor.basic.listing = loaded editor.buffer.text)
    (whole : Whole editor.buffer.text)
    (room : editor.buffer.text.length + line.bytes.length + 2 < editorMaxFileSize) :
    after.basic.listing = loaded after.buffer.text := by
  obtain ⟨byte, first, low⟩ := numberedLine_head numbered
  obtain ⟨run, list, clear⟩ := @no_word line.text.bytes byte first low
  have known : numberedLine line.text.bytes = some stored := numbered
  have terminated : Basic.Terminated editor.basic.listing := program ▸ (loadBuffer_listing editor.basic _).2
  have listing := Basic.addLine_listing terminated stored.1 stored.2
  have code := addLine_code editor.basic stored.1 stored.2
  have fits : editor.buffer.text.length + line.text.bytes.length + 2 < editorMaxFileSize := room
  rw [enterBasic, typed] at call
  dsimp only at call
  rw [if_neg run, if_neg list, if_neg clear, known] at call
  dsimp only at call
  generalize editor.basic.addLine stored.1 stored.2 = added at listing code call
  obtain ⟨ret, basic⟩ := added
  dsimp only at listing code call
  by_cases ok : ret = 0
  · rw [if_pos ok] at call
    obtain rfl := Option.some.inj call
    rw [addLine_basic, addLine_text]
    dsimp only
    rw [listing, program, if_pos fits]
    exact (loaded_line whole line numbered).symm
  · rw [if_neg ok] at call
    obtain rfl := Option.some.inj call
    obtain rfl := code.resolve_left ok
    exact program

theorem clear_program {fuel : Nat} {line : TypedLine} (word : (ascii "CLEAR").isPrefixOf (skipSpaces line.bytes) = true)
    (call : editor.enterBasic fuel = some after) (typed : editor.lineBuffer = line.text)
    (front : line.bytes.head? = some 67 ∨ numberedLines editor.buffer.text = []) :
    after.basic.listing = loaded after.buffer.text := by
  obtain ⟨rest, shape⟩ := List.isPrefixOf_iff_prefix.mp word
  have first : (skipSpaces line.bytes).head? = some 67 := by
    rw [← shape]
    rfl
  rw [enterBasic, typed] at call
  dsimp only at call
  rcases skipSpaces_cases line.bytes with same | ⟨blank, here, blanks⟩
  · rw [same] at first word
    have run : ¬ (ascii "RUN").isPrefixOf line.text.bytes = true := begins_otherwise rfl first (by decide)
    have list : ¬ (ascii "LIST").isPrefixOf line.text.bytes = true := begins_otherwise rfl first (by decide)
    have clear : (ascii "CLEAR").isPrefixOf line.text.bytes = true := word
    rw [if_neg run, if_neg list, if_pos clear] at call
    obtain rfl := Option.some.inj call
    change _ = loaded EditorBuffer.zero.text
    rw [EditorBuffer.text_zero]
    rfl
  · obtain ⟨run, list, clear⟩ := @no_word line.text.bytes blank here (by rcases blanks with rfl | rfl <;> decide)
    have unnumbered : numberedLine line.text.bytes = none := by
      by_contra numbered
      obtain ⟨stored, numbered⟩ := Option.ne_none_iff_exists'.mp numbered
      obtain ⟨digit, start, decimal⟩ := numberedLine_digit numbered
      obtain rfl := Option.some.inj (first.symm.trans start)
      cases decimal
    have executed := executeLine_clear word fuel editor.basic
    rw [if_neg run, if_neg list, if_neg clear, unnumbered] at call
    dsimp only at call
    obtain ⟨⟨ret, basic⟩, execute, call⟩ := Option.bind_eq_some_iff.mp call
    obtain ⟨rfl, rfl⟩ := Prod.mk.inj (Option.some.inj (executed.symm.trans execute))
    obtain rfl := Option.some.inj call
    have empty : numberedLines editor.buffer.text = [] := by
      refine front.resolve_left fun capital => ?_
      obtain rfl := Option.some.inj (here.symm.trans capital)
      exact absurd blanks (by decide)
    change [] = loaded editor.buffer.text
    rw [loaded, empty]
    rfl

theorem deleteLastLine_program (editor : Editor) :
    editor.deleteLastLine.mode = editor.mode ∧ editor.deleteLastLine.basic.listing = editor.basic.listing := by
  rw [deleteLastLine]
  split
  · exact ⟨rfl, rfl⟩
  · exact ⟨rfl, rfl⟩

theorem deleted_program {line : TypedLine} (entered : Entered line editor after) (command : line.bytes = ascii ":d") :
    after.mode = editor.mode ∧ after.basic.listing = editor.basic.listing ∧
      after.buffer.text = editor.buffer.text.take (lastLine editor.buffer.text) := by
  obtain ⟨fuel, ambient, call⟩ := entered
  have bytes : line.text.bytes = ascii ":d" := command
  have colon : line.text.bytes.head? = some 58 := by
    rw [bytes]
    rfl
  have deleted := @handleCommand_delete { editor with lineBuffer := line.text } bytes ambient
  have program := deleteLastLine_program { editor with lineBuffer := line.text }
  have text := deleteLastLine_text { editor with lineBuffer := line.text }
  rw [enterLine, if_pos colon] at call
  dsimp only at call program text
  rw [deleted] at call
  generalize deleteLastLine { editor with lineBuffer := line.text } = state at call program text
  have result : clearScreen { state with running := false } = after := Option.some.inj call
  rw [← result]
  exact ⟨program.1, program.2, text⟩

end Steps

/-- What changes the mode, the buffer or the program. -/
inductive Action where
  | openFile (ambient : Ambient) (filename : Option CString) (mode : Byte)
  | setMode (mode : Byte)
  | start
  | number (line : TypedLine)
  | clear (line : TypedLine)
  | delete (line : TypedLine)

inductive Step (before : Editor) : Action → Editor → Prop
  | openFile {ambient : Ambient} {filename : Option CString} {mode : Byte} {ret : Int} {after : Editor}
      (call : before.openFile ambient filename mode = some (ret, after)) : Step before (.openFile ambient filename mode) after
  | setMode (mode : Byte) : Step before (.setMode mode) (before.setMode mode)
  | start : Step before .start before.start
  | number {line : TypedLine} {after : Editor} (numbered : (numberedLine line.bytes).isSome = true)
      (running : before.running = true) (entered : Entered line before after) : Step before (.number line) after
  | clear {line : TypedLine} {after : Editor} (word : (ascii "CLEAR").isPrefixOf (skipSpaces line.bytes) = true)
      (running : before.running = true) (entered : Entered line before after) : Step before (.clear line) after
  | delete {line : TypedLine} {after : Editor} (command : line.bytes = ascii ":d")
      (running : before.running = true) (entered : Entered line before after) : Step before (.delete line) after

/-- A file is not opened in BASIC mode, unless its program is stored already. In
BASIC mode a line is added only behind a whole line and where it fits, nothing
stands before `CLEAR`, unless there is no program, and the line that is deleted has
no number. -/
def Follows (editor : Editor) : Action → Prop
  | .openFile _ none _ => True
  | .openFile ambient (some filename) mode =>
    mode = editorModeBasic → editor.basic.listing = loaded (fileText editor.files ambient filename)
  | .setMode _ => True
  | .start => True
  | .number line => editor.mode = editorModeBasic →
    Whole editor.buffer.text ∧ editor.buffer.text.length + line.bytes.length + 2 < editorMaxFileSize
  | .clear line => editor.mode = editorModeBasic →
    line.bytes.head? = some 67 ∨ numberedLines editor.buffer.text = []
  | .delete _ => editor.mode = editorModeBasic →
    numberedLines (editor.buffer.text.take (lastLine editor.buffer.text)) = numberedLines editor.buffer.text

theorem Step.inStep {before after : Editor} {action : Action} (step : Step before action after)
    (follows : Follows before action) (inStep : InStep before) : InStep after := by
  cases step with
  | @openFile ambient filename mode ret after call =>
    cases filename with
    | none =>
      obtain ⟨_, rfl⟩ := Prod.mk.inj (Option.some.inj call)
      exact inStep
    | some filename =>
      obtain ⟨mode, listing, text⟩ := openFile_spec call
      rw [InStep, mode, listing, text]
      exact follows
  | setMode mode => exact setMode_inStep inStep mode
  | start => exact (start_silent before).inStep inStep
  | @number line after numbered running entered =>
    obtain ⟨stored, numbered⟩ := Option.isSome_iff_exists.mp numbered
    obtain ⟨byte, first, low⟩ := numberedLine_head numbered
    refine entered_inStep entered first ?_ fun basic fuel state call => ?_
    · rintro rfl
      exact absurd low (by decide)
    · obtain ⟨whole, room⟩ := follows basic
      exact numbered_program numbered call rfl (inStep basic) whole room
  | @clear line after word running entered =>
    obtain ⟨byte, first, plain⟩ := clear_head word
    exact entered_inStep entered first plain fun basic fuel state call =>
      clear_program word call rfl (follows basic)
  | @delete line after command running entered =>
    obtain ⟨mode, listing, text⟩ := deleted_program entered command
    intro basic
    rw [mode] at basic
    rw [listing, text, inStep basic, loaded, loaded, follows basic]

/-- One action after the other, each as `follows` asks. -/
def Turns (follows : Editor → Action → Prop) (before after : Editor) : Prop :=
  ∃ action, Step before action after ∧ follows before action

/-- In every such run the program is the one that the loop of `editor_set_mode`
loads from the buffer, whenever the mode is BASIC. -/
theorem editor_program_loaded {first editor : Editor} (run : Reachable (Turns Follows) first.init editor)
    (basic : editor.mode = editorModeBasic) :
    editor.basic.listing = (loadBuffer editor.basic.clearProgram editor.buffer.text).listing := by
  have initial : InStep first.init := fun impossible =>
    absurd impossible (by decide : editorModeText ≠ editorModeBasic)
  have inStep := run.invariant initial fun before after inStep turn => by
    obtain ⟨action, step, follows⟩ := turn
    exact step.inStep follows inStep
  rw [inStep basic, (loadBuffer_listing _ _).1]

def printLine : TypedLine := ⟨ascii "10 PRINT 1", by decide, by decide⟩

theorem editor_program_loaded_typed : ∃ editor, Reachable (Turns Follows) fresh.init editor ∧
    editor.basic.listing = (loadBuffer editor.basic.clearProgram editor.buffer.text).listing ∧
      editor.basic.listing = [(10, ascii "PRINT 1")] := by
  generalize before : (fresh.init.setMode editorModeBasic).start = state
  have turned : Turns Follows fresh.init (fresh.init.setMode editorModeBasic) := ⟨.setMode _, .setMode _, trivial⟩
  have started : Turns Follows (fresh.init.setMode editorModeBasic) state := before ▸ ⟨.start, .start, trivial⟩
  have entered : (enterLine 0 Ambient.zero printLine.text state).map (fun after => (after.mode, after.basic.listing)) =
      some (editorModeBasic, [(10, ascii "PRINT 1")]) := by
    rw [← before]
    decide +kernel
  obtain ⟨after, call, result⟩ := Option.map_eq_some_iff.mp entered
  obtain ⟨mode, listing⟩ := Prod.mk.inj result
  have follows : Follows state (.number printLine) := fun _ => by
    rw [← before]
    exact ⟨.inl (by decide +kernel), by decide +kernel⟩
  have running : state.running = true := before ▸ rfl
  have typed : Turns Follows state after := ⟨_, .number (by decide) running ⟨0, Ambient.zero, call⟩, follows⟩
  have run := ((Relation.ReflTransGen.single turned).tail started).tail typed
  exact ⟨after, run, editor_program_loaded run mode, listing⟩

def programName : CString := CString.ofBytes (ascii "a.bas")

/-- The same with a program in a file. -/
def stored : Editor :=
  let ram := (RamFs.init.createFile programName).2
  { fresh with
    files := { FileSystem.init (Diskfs.uniform 0) with
      ram := (ram.write programName (fun place => (ascii "10 PRINT 1\n").getD place 0) 11).2 } }

/-- `editor_open` takes the mode without loading the program. -/
theorem editor_program_not_loaded : ∃ editor, Reachable (Turns fun _ _ => True) stored.init editor ∧
    editor.running = true ∧ editor.mode = editorModeBasic ∧
      editor.basic.listing ≠ (loadBuffer editor.basic.clearProgram editor.buffer.text).listing := by
  have opened : (stored.init.openFile Ambient.zero (some programName) editorModeBasic).isSome = true := by decide +kernel
  obtain ⟨⟨ret, after⟩, call⟩ := Option.isSome_iff_exists.mp opened
  obtain ⟨mode, listing, text⟩ := openFile_spec call
  have silent := start_silent after
  have loaded : Turns (fun _ _ => True) stored.init after := ⟨_, .openFile call, trivial⟩
  have started : Turns (fun _ _ => True) after after.start := ⟨_, .start, trivial⟩
  have run := (Relation.ReflTransGen.single loaded).tail started
  refine ⟨after.start, run, rfl, silent.mode.trans mode, ?_⟩
  rw [(loadBuffer_listing _ _).1, silent.listing, silent.buffer, listing, text]
  decide +kernel

end MexOS.Ui.Editor
