import MexOS.Fs.FileSystem
import MexOS.Ui.Basic

/-! The editor of `ui/editor.c`. Where a call of `fs.c` or a program has no
result, nothing here has one. -/

namespace MexOS.Ui

open MexOS.Machine MexOS.Fs

def editorModeText : Byte := 0
def editorModeBasic : Byte := 1
def editorModeHex : Byte := 2

def editorMaxFileSize : Nat := 4096
def editorLineSize : Nat := 256

def editorCmdQuit : Int := 0

def newline : CString := ⟨[10], by decide⟩

/-- The array `buffer`, with the terminator of its string. -/
structure EditorBuffer where
  bytes : Bytes
  terminated : (bytes.text 0 editorMaxFileSize).length < editorMaxFileSize

namespace EditorBuffer

/-- The string in the array. -/
def text (buffer : EditorBuffer) : List Byte := buffer.bytes.text 0 editorMaxFileSize

def zero : EditorBuffer where
  bytes := Bytes.zero
  terminated := lt_of_le_of_lt (Bytes.text_length_le rfl) (by decide : 0 < editorMaxFileSize)

/-- `buffer[place] = '\0'` -/
def terminate (bytes : Bytes) {place : Nat} (inside : place < editorMaxFileSize) : EditorBuffer where
  bytes := Function.update bytes place 0
  terminated := lt_of_le_of_lt (Bytes.text_length_le (by rw [Nat.zero_add, Function.update_self])) inside

/-- Append a line and its end. -/
def append (buffer : EditorBuffer) (line : CString)
    (room : buffer.text.length + line.bytes.length + 2 < editorMaxFileSize) : EditorBuffer where
  bytes := Lib.strcat (Lib.strcat buffer.bytes editorMaxFileSize line) editorMaxFileSize newline
  terminated := by
    rw [text] at room
    have first := @Lib.text_strcat buffer.bytes line editorMaxFileSize (by omega)
    have size : newline.bytes.length = 1 := rfl
    have room : ((Lib.strcat buffer.bytes editorMaxFileSize line).text 0 editorMaxFileSize).length +
        newline.bytes.length < editorMaxFileSize := by
      rw [first, List.length_append]
      omega
    rw [Lib.text_strcat room, List.length_append]
    exact room

end EditorBuffer

/-- The `editor_state`, with the interpreter and the files that the editor works
on. -/
structure Editor where
  filename : CString
  buffer : EditorBuffer
  lineBuffer : CString
  bufferSize : Nat
  mode : Byte
  modified : Bool
  running : Bool
  basic : Basic
  files : FileSystem

namespace Editor

def write (editor : Editor) (text : List Byte) : Editor := { editor with basic := editor.basic.write text }

def clearScreen (editor : Editor) : Editor := { editor with basic := { editor.basic with console := [] } }

def init (editor : Editor) : Editor :=
  { editor with
    filename := CString.ofBytes []
    buffer := EditorBuffer.zero
    lineBuffer := CString.ofBytes []
    bufferSize := 0
    mode := editorModeText
    modified := false
    running := false }

def drawHeader (editor : Editor) : Editor :=
  let mode :=
    if editor.mode = editorModeText then ascii " [TEXT]"
    else if editor.mode = editorModeBasic then ascii " [BASIC]"
    else if editor.mode = editorModeHex then ascii " [HEX]"
    else []
  editor.write (ascii "=== mexOS Editor: " ++ editor.filename.bytes ++ mode ++
    (if editor.modified then ascii " *" else []) ++ ascii " ===\n")

def drawStatus (editor : Editor) : Editor :=
  let keys :=
    if editor.mode = editorModeText then
      ascii ":q quit | :w save | :wq save+quit | :d delete line | :p print | :h help\n"
    else if editor.mode = editorModeBasic then
      ascii "Enter line numbers to add code | RUN | LIST | :q quit | :w save | :h help\n"
    else if editor.mode = editorModeHex then ascii ":q quit | :w save | :wq save+quit | :h help\n"
    else []
  editor.write (ascii "---\n" ++ keys)

/-- The help of the mode. The key that is waited for has no other effect. -/
def showHelp (editor : Editor) : Editor :=
  let lines :=
    if editor.mode = editorModeText then
      ["TEXT MODE:\n", "  :q          - Quit editor\n", "  :w          - Save file\n",
        "  :wq         - Save and quit\n", "  :d          - Delete last line\n", "  :p          - Print buffer\n",
        "  :mode basic - Switch to BASIC mode\n", "  :mode hex   - Switch to HEX mode\n",
        "  :h          - Show this help\n", "\nType text and press Enter to add lines\n"]
    else if editor.mode = editorModeBasic then
      ["BASIC MODE:\n", "  RUN         - Execute BASIC program\n", "  LIST        - List program lines\n",
        "  CLEAR       - Clear program\n", "  PRINT expr  - Print expression\n",
        "  LET var=val - Assign variable (A-Z)\n", "  10 PRINT..  - Add numbered line\n",
        "  :q          - Quit editor\n", "  :w          - Save program\n",
        "  :mode text  - Switch to TEXT mode\n", "  :h          - Show this help\n"]
    else if editor.mode = editorModeHex then
      ["HEX MODE:\n", "  :q          - Quit editor\n", "  :w          - Save file\n",
        "  :wq         - Save and quit\n", "  :mode text  - Switch to TEXT mode\n",
        "  :h          - Show this help\n", "\nHex viewer (read-only in this version)\n"]
    else []
  editor.write (ascii "\n=== Editor Help ===\n" ++ (lines.map ascii).flatten ++ ascii "\nPress any key to continue...\n")

/-- `editor_open`; a NULL filename is `none`. -/
def openFile (editor : Editor) (ambient : Ambient) (filename : Option CString) (mode : Byte) : Option (Int × Editor) :=
  match filename with
  | none => some (-1, editor)
  | some filename =>
    let editor :=
      { editor with
        filename := CString.ofBytes (filename.bytes.take 127)
        mode
        modified := false
        bufferSize := 0
        buffer := EditorBuffer.zero }
    if editor.files.fsExists filename then
      if editor.files.isDir filename then some (-1, editor.write (ascii "editor: is a directory\n"))
      else do
        let (ret, bytes, files) ← editor.files.read filename ambient editor.buffer.bytes 4095
        let fileLen := if ret < 0 then 0 else ret.toNat
        if inside : fileLen < editorMaxFileSize then
          return (0, { editor with buffer := EditorBuffer.terminate bytes inside, bufferSize := fileLen, files })
        else none
    else do
      let (ret, files) ← editor.files.createFile filename ambient
      let editor := { editor with files }
      if ret ≠ 0 then return (-1, editor.write (ascii "editor: cannot create file\n"))
      return (0, editor)

def save (editor : Editor) (ambient : Ambient) : Option (Int × Editor) := do
  let length := BitVec.ofNat 32 editor.buffer.text.length
  let (ret, files) ← editor.files.write editor.filename ambient editor.buffer.bytes length
  let editor := { editor with files }
  if ret = 0 then return (0, { editor with modified := false }.write (ascii "Saved\n"))
  return (-1, editor.write (ascii "Error: Failed to save file\n"))

/-- Where the search for a newline before `lastNl` ends. -/
def lineStart (text : List Byte) : Nat → Nat
  | 0 => 0
  | lastNl + 1 => if text.getD lastNl 0 = 10 then lastNl + 1 else lineStart text lastNl

/-- Where `editor_delete_last_line` cuts a text. -/
def lastLine (text : List Byte) : Nat :=
  let len := text.length
  lineStart text (if text.getD (len - 1) 0 = 10 ∧ 1 < len then len - 1 else len)

theorem lineStart_le (text : List Byte) (lastNl : Nat) : lineStart text lastNl ≤ lastNl := by
  induction lastNl with
  | zero => exact Nat.le_refl _
  | succ lastNl ih =>
    rw [lineStart]
    split
    · exact Nat.le_refl _
    · exact ih.trans (Nat.le_succ _)

theorem lastLine_le (text : List Byte) : lastLine text ≤ text.length := by
  rw [lastLine]
  split
  · exact (lineStart_le _ _).trans (Nat.sub_le _ _)
  · exact lineStart_le _ _

def deleteLastLine (editor : Editor) : Editor :=
  let text := editor.buffer.text
  if 0 < text.length then
    { editor with
      buffer := EditorBuffer.terminate editor.buffer.bytes ((lastLine_le text).trans_lt editor.buffer.terminated)
      bufferSize := lastLine text
      modified := true }.write (ascii "Line deleted\n")
  else editor.write (ascii "Buffer empty\n")

def printBuffer (editor : Editor) : Editor :=
  let text := editor.buffer.text
  let shown := if 0 < text.length then text ++ (if text.getD (text.length - 1) 0 ≠ 10 then ascii "\n" else []) else []
  editor.write (ascii "---\n" ++ shown ++ ascii "---\n")

def addLine (editor : Editor) (line : CString) : Editor :=
  if room : editor.buffer.text.length + line.bytes.length + 2 < editorMaxFileSize then
    { editor with
      buffer := editor.buffer.append line room
      bufferSize := editor.buffer.text.length + line.bytes.length + 1
      modified := true }
  else editor.write (ascii "Buffer full\n")

/-- The loop that copies a line of no more than `room` bytes: the line, and
what is left. -/
def takeLine : Nat → List Byte → List Byte × List Byte
  | 0, text => ([], text)
  | _ + 1, [] => ([], [])
  | room + 1, byte :: text =>
    if byte = 10 then ([], byte :: text) else (byte :: (takeLine room text).1, (takeLine room text).2)

/-- The lines that the loop of `editor_set_mode` finds; each turn takes one
byte at least. -/
def bufferLines : Nat → List Byte → List (List Byte)
  | 0, _ => []
  | turns + 1, text =>
    if text = [] then []
    else
      let (line, rest) := takeLine (editorLineSize - 1) text
      line :: bufferLines turns (if rest.head? = some 10 then rest.tail else rest)

/-- The number and the text of a line that begins with a number. -/
def numberedLine (line : List Byte) : Option (Word × CString) :=
  let ptr := line.dropWhile fun byte => byte = 32
  if isDigit (ptr.headD 0) then
    some (digitsValue 0 ptr, CString.ofBytes ((ptr.dropWhile isDigit).dropWhile fun byte => byte = 32))
  else none

/-- The loop of `editor_set_mode`. -/
def loadBuffer (basic : Basic) (text : List Byte) : Basic :=
  (bufferLines text.length text).foldl
    (fun basic line =>
      match numberedLine line with
      | none => basic
      | some (lineNum, text) => (basic.addLine lineNum text).2) basic

def setMode (editor : Editor) (mode : Byte) : Editor :=
  if mode ≠ editor.mode then
    let editor := { editor with mode, modified := true }
    if mode = editorModeBasic then
      { editor with basic := loadBuffer editor.basic.clearProgram editor.buffer.text }.write (ascii "Switched to BASIC mode\n")
    else if mode = editorModeText then editor.write (ascii "Switched to TEXT mode\n")
    else if mode = editorModeHex then editor.write (ascii "Switched to HEX mode\n")
    else editor
  else editor

def runBasic (fuel : Nat) (editor : Editor) : Option Editor :=
  if editor.mode ≠ editorModeBasic then some (editor.write (ascii "Not in BASIC mode\n"))
  else do
    let editor := editor.write (ascii "\n=== Running BASIC Program ===\n")
    let basic ← editor.basic.runProgram fuel
    return { editor with basic }.write (ascii "\n=== Program Finished ===\n")

def listBasic (editor : Editor) : Editor :=
  if editor.mode ≠ editorModeBasic then editor.write (ascii "Not in BASIC mode\n")
  else { editor with basic := editor.basic.listProgram }

/-- `editor_handle_command`: the command is in `line_buffer`. -/
def handleCommand (editor : Editor) (ambient : Ambient) : Option (Int × Editor) :=
  let line := editor.lineBuffer.bytes
  let cmd := if line.head? = some 58 then line.tail else line
  if cmd = ascii "q" then
    if editor.modified then
      some (0, editor.write (ascii "Warning: unsaved changes (use :q! to force quit)\n"))
    else some (editorCmdQuit, editor)
  else if cmd = ascii "q!" then some (editorCmdQuit, editor)
  else if cmd = ascii "w" then do
    let (_, editor) ← editor.save ambient
    return (0, editor)
  else if cmd = ascii "wq" then do
    let (_, editor) ← editor.save ambient
    return (editorCmdQuit, editor)
  else if cmd = ascii "d" then some (0, editor.deleteLastLine)
  else if cmd = ascii "p" then some (0, editor.printBuffer)
  else if cmd = ascii "h" ∨ cmd = ascii "help" then some (0, editor.showHelp)
  else if (ascii "mode ").isPrefixOf cmd then
    let cmd := (cmd.drop 5).dropWhile fun byte => byte = 32
    if cmd = ascii "text" then some (0, editor.setMode editorModeText)
    else if cmd = ascii "basic" then some (0, editor.setMode editorModeBasic)
    else if cmd = ascii "hex" then some (0, editor.setMode editorModeHex)
    else some (0, editor.write (ascii "Unknown mode\n"))
  else some (0, editor.write (ascii "Unknown command (type :h for help)\n"))

/-- A line in BASIC mode that is no command of the editor. -/
def enterBasic (fuel : Nat) (editor : Editor) : Option Editor :=
  let line := editor.lineBuffer
  if (ascii "RUN").isPrefixOf line.bytes then editor.runBasic fuel
  else if (ascii "LIST").isPrefixOf line.bytes then some editor.listBasic
  else if (ascii "CLEAR").isPrefixOf line.bytes then
    let editor := { editor with basic := editor.basic.clearProgram }
    some ({ editor with buffer := EditorBuffer.zero, bufferSize := 0, modified := true }.write (ascii "Program cleared\n"))
  else
    match numberedLine line.bytes with
    | some (lineNum, text) =>
      let (ret, basic) := editor.basic.addLine lineNum text
      let editor := { editor with basic }
      if ret = 0 then some (editor.addLine line) else some (editor.write (ascii "Error: Program full\n"))
    | none => do
      let (ret, basic) ← editor.basic.executeLine fuel line.bytes
      let editor := { editor with basic }
      if ret < 0 then return editor.write (ascii "Syntax error\n")
      return editor

/-- A turn of the loop of `editor_run` once the line has been typed. -/
def enterLine (fuel : Nat) (ambient : Ambient) (line : CString) (editor : Editor) : Option Editor :=
  let editor := { editor with lineBuffer := line }
  if line.bytes.head? = some 58 then do
    let (cmdResult, editor) ← editor.handleCommand ambient
    if cmdResult = editorCmdQuit then return { editor with running := false }.clearScreen
    return editor.write (ascii "> ")
  else if editor.mode = editorModeBasic then do
    let editor ← editor.enterBasic fuel
    return editor.write (ascii "> ")
  else some ((editor.addLine line).write (ascii "> "))

/-- `editor_run` up to its loop. -/
def start (editor : Editor) : Editor :=
  let editor := { editor with running := true }.clearScreen.drawHeader.drawStatus.write (ascii "---\n")
  let shown :=
    if 0 < editor.bufferSize then
      editor.buffer.text ++ (if editor.buffer.bytes (editor.bufferSize - 1) ≠ 10 then ascii "\n" else [])
    else []
  editor.write (shown ++ ascii "---\n> ")

end Editor

/-- A line as it can be typed. -/
@[ext] structure TypedLine where
  bytes : List Byte
  printable : ∀ byte ∈ bytes, 32 ≤ byte ∧ byte < 127
  short : bytes.length < editorLineSize

namespace TypedLine

def empty : TypedLine := ⟨[], fun _ member => absurd member List.not_mem_nil, by decide⟩

def text (line : TypedLine) : CString where
  bytes := line.bytes
  terminated zero := absurd (line.printable 0 zero).1 (by decide)

/-- What a key other than Enter makes of the line, and what is echoed. -/
def type (line : TypedLine) (key : Byte) : TypedLine × List Byte :=
  if key = 8 then
    if line.bytes ≠ [] then
      ({ bytes := line.bytes.dropLast
         printable := fun byte member => line.printable byte (List.dropLast_subset _ member)
         short := by
          rw [List.length_dropLast]
          exact (Nat.sub_le _ _).trans_lt line.short }, [8, 32, 8])
    else (line, [])
  else if visible : (32 ≤ key ∧ key < 127) ∧ line.bytes.length < editorLineSize - 1 then
    ({ bytes := line.bytes ++ [key]
       printable := by
        intro byte member
        rcases List.mem_append.mp member with old | fresh
        · exact line.printable byte old
        · exact List.mem_singleton.mp fresh ▸ visible.1
       short := by
        have limit : editorLineSize = 256 := rfl
        rw [List.length_append, List.length_singleton]
        omega }, [key])
  else (line, [])

end TypedLine

/-- The inner loop of `editor_run`: the line, the keys behind it and the
console. `none`: Enter has not been pressed. -/
def readLine : List Byte → TypedLine → List Byte → Option (TypedLine × List Byte × List Byte)
  | [], _, _ => none
  | key :: keys, line, console =>
    if key = 10 then some (line, keys, console ++ [10])
    else readLine keys (line.type key).1 (console ++ (line.type key).2)

end MexOS.Ui
