import MexOS.Ui.Basic

/-! The line editor of `ui/shell.c`: the keys of `shell_run`, and the history of
the lines.

Each array is an object of its own. `strncpy` writes one zero more, behind the
256 bytes of `cmd_buffer` and `temp_buffer`. As the kernel is linked, the first
falls on the low byte of `cmd_pos`, which is assigned next, and the second on
`vterm_initialized` of `console.c`: `console_putchar` then goes past the virtual
terminals. What is written to the console here is what it is called with. -/

namespace MexOS.Ui

open MexOS.Machine

def cmdBufferSize : Nat := 256
def historySize : Nat := 32

def keyArrowUp : Byte := 0x80
def keyArrowDown : Byte := 0x81
def keyHome : Byte := 0x84
def keyEnd : Byte := 0x85

/-- The string that an array starts with. -/
def stringAt (bytes : Bytes) (offset : Nat) : CString := ⟨bytes.text offset cmdBufferSize, Bytes.text_clean _ _ _⟩

/-- The statics of the line editor, the lines given to `execute_command` so far,
and what has been written to the console. `history` has the rows one behind the
other; `historyPos` is signed. -/
structure Shell where
  cmdBuffer : Bytes
  cmdPos : Nat
  history : Bytes
  historyCount : Word
  historyPos : Int
  tempBuffer : Bytes
  executed : List (List Byte)
  console : List Byte

namespace Shell

def write (s : Shell) (text : List Byte) : Shell := { s with console := s.console ++ text }

def prompt (s : Shell) : Shell := s.write (ascii "mexOS> ")

/-- Where `shell_run` begins to wait for keys. -/
def start : Shell :=
  prompt ⟨Bytes.zero, 0, Bytes.zero, 0, 0, Bytes.zero, [], ascii "\nmexOS Shell - Type 'help' for commands\n\n"⟩

/-- The string in `cmd_buffer`. -/
def line (s : Shell) : CString := stringAt s.cmdBuffer 0

/-- The first `cmd_pos` characters of `cmd_buffer`. -/
def visible (s : Shell) : List Byte := s.cmdBuffer.toList s.cmdPos

/-- `history[idx]` -/
def row (s : Shell) (idx : Nat) : CString := stringAt s.history (cmdBufferSize * idx)

def historyAdd (s : Shell) (cmd : CString) : Shell :=
  if cmd.bytes = [] then s
  else if 0 < s.historyCount ∧ (s.row ((s.historyCount - 1).toNat % historySize)).bytes = cmd.bytes then s
  else
    let idx := s.historyCount.toNat % historySize
    { s with
      history := Lib.setText s.history (cmdBufferSize * idx) cmd cmdBufferSize
      historyCount := s.historyCount + 1 }

def clearLine (s : Shell) : Shell :=
  { s.write (List.replicate s.cmdPos [8, 32, 8]).flatten with cmdPos := 0 }

/-- Show the string in `cmd_buffer`. -/
def showLine (s : Shell) : Shell :=
  let s := { s with cmdPos := s.line.bytes.length }
  s.write s.visible

/-- Copy a string to `cmd_buffer` and show it. -/
def recallLine (s : Shell) (source : CString) : Shell :=
  { s with
    cmdBuffer := Function.update (Lib.strncpy s.cmdBuffer 0 source.stored cmdBufferSize) (cmdBufferSize - 1) 0 }.showLine

/-- The row for a position of the history. -/
def rowAt (s : Shell) (pos : Int) : CString := s.row ((BitVec.ofInt 32 pos).toNat % historySize)

/-- `execute_command` changes nothing of the line editor but the bytes of
`cmd_buffer`, which are cleared then. -/
def enter (s : Shell) : Shell :=
  let s := { s.write (ascii "\n") with cmdBuffer := Function.update s.cmdBuffer s.cmdPos 0 }
  let line := s.line
  let s := if line.bytes ≠ [] then s.historyAdd line else s
  let s := { s with executed := s.executed ++ [line.bytes] }
  prompt { s with
    cmdPos := 0
    cmdBuffer := Bytes.zero
    tempBuffer := Bytes.zero
    historyPos := s.historyCount.toInt }

def erase (s : Shell) : Shell :=
  if 0 < s.cmdPos then { s.write [8, 32, 8] with cmdPos := s.cmdPos - 1 } else s

def oldest (s : Shell) : Int := (if 32 < s.historyCount then s.historyCount - 32 else 0 : Word).toInt

/-- Keep the line that is being typed, if none has been recalled. -/
def keepLine (s : Shell) : Shell :=
  if s.historyPos = s.historyCount.toInt then
    { s with tempBuffer := Lib.strncpy s.tempBuffer 0 s.line.stored cmdBufferSize }
  else s

def arrowUp (s : Shell) : Shell :=
  if s.historyCount = 0 then s
  else
    let s := s.keepLine
    if s.oldest < s.historyPos then
      let s := { s with historyPos := s.historyPos - 1 }.clearLine
      s.recallLine (s.rowAt s.historyPos)
    else s

def arrowDown (s : Shell) : Shell :=
  if s.historyCount = 0 ∨ s.historyCount.toInt ≤ s.historyPos then s
  else
    let s := { s with historyPos := s.historyPos + 1 }.clearLine
    if s.historyCount.toInt ≤ s.historyPos then s.recallLine (stringAt s.tempBuffer 0)
    else s.recallLine (s.rowAt s.historyPos)

def type (s : Shell) (c : Byte) : Shell :=
  { s.write [c] with cmdBuffer := Function.update s.cmdBuffer s.cmdPos c, cmdPos := s.cmdPos + 1 }

/-- A turn of the loop of `shell_run`. -/
def press (s : Shell) (c : Byte) : Shell :=
  if c = 10 then s.enter
  else if c = 8 then s.erase
  else if c = keyArrowUp then s.arrowUp
  else if c = keyArrowDown then s.arrowDown
  else if c = keyHome then s.clearLine
  else if c = keyEnd then s.clearLine.showLine
  else if (32 ≤ c ∧ c < 127) ∧ s.cmdPos < cmdBufferSize - 1 then s.type c
  else s

def run (s : Shell) (keys : List Byte) : Shell := keys.foldl press s

end Shell

end MexOS.Ui
