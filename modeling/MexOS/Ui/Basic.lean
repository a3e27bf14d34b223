import MexOS.Lib.Strings

/-! The BASIC interpreter of `ui/basic.c`. -/

namespace MexOS.Ui

open MexOS.Machine

def basicMaxLineLen : Nat := 128
def basicMaxProgramLines : Nat := 100

/-- The bytes of a literal. -/
def ascii (literal : String) : List Byte := literal.toList.map fun character => BitVec.ofNat 8 character.toNat

/-- What `console_write_dec` writes. -/
def decimal (value : Word) : List Byte := (Nat.toDigits 10 value.toNat).map fun digit => BitVec.ofNat 8 digit.toNat

def skipSpaces (str : List Byte) : List Byte := str.dropWhile fun byte => byte = 32 ∨ byte = 9

def isDigit (byte : Byte) : Bool := 48 ≤ byte ∧ byte ≤ 57

def isLetter (byte : Byte) : Bool := 65 ≤ byte ∧ byte ≤ 90

/-- The loop that collects the digits of a number. -/
def digitsValue (result : Word) : List Byte → Word
  | [] => result
  | byte :: rest => if isDigit byte then digitsValue (result * 10 + (byte.setWidth 32 - 48)) rest else result

def strToInt (str : List Byte) : Word :=
  let str := skipSpaces str
  if str.headD 0 = 45 then digitsValue 0 str.tail * -1 else digitsValue 0 str

/-- The statics of `basic.c`, and what has been written to the console. `lines`
has the rows of `program`, and `line_numbers` behind them. -/
structure Basic where
  vars : Nat → Word
  lines : Bytes
  lineCount : Nat
  pc : Nat
  stackPtr : Nat
  running : Bool
  console : List Byte

namespace Basic

/-- The statics of a program that has just been loaded. -/
def zero : Basic := ⟨fun _ => 0, Bytes.zero, 0, 0, 0, false, []⟩

def rowOffset (i : Nat) : Nat := basicMaxLineLen * i
def numberOffset (i : Nat) : Nat := basicMaxLineLen * basicMaxProgramLines + 4 * i

/-- `line_numbers[i]`. -/
def lineNumber (basic : Basic) (i : Nat) : Word := basic.lines.word (numberOffset i)

/-- The string in `program[i]`. -/
def program (basic : Basic) (i : Nat) : List Byte := basic.lines.text (rowOffset i) basicMaxLineLen

def write (basic : Basic) (text : List Byte) : Basic := { basic with console := basic.console ++ text }

def evaluateExpression (basic : Basic) (expr : List Byte) : Word :=
  let expr := skipSpaces expr
  let byte := expr.headD 0
  if isLetter byte then basic.vars (byte - 65).toNat
  else if byte = 45 ∨ isDigit byte then strToInt expr
  else 0

def init (basic : Basic) : Basic :=
  { basic with
    vars := fun _ => 0
    lineCount := 0
    pc := 0
    stackPtr := 0
    running := false }

def executePrint (basic : Basic) (line : List Byte) : Int × Basic :=
  let line := skipSpaces line
  let written :=
    if line.headD 0 = 34 then line.tail.takeWhile fun byte => byte ≠ 34
    else if line ≠ [] then decimal (basic.evaluateExpression line)
    else []
  (0, basic.write (written ++ ascii "\n"))

def executeLet (basic : Basic) (line : List Byte) : Int × Basic :=
  let line := skipSpaces line
  let var := line.headD 0
  if ¬ isLetter var then (-1, basic)
  else
    let line := skipSpaces line.tail
    if line.headD 0 ≠ 61 then (-1, basic)
    else
      let value := basic.evaluateExpression line.tail
      (0, { basic with vars := Function.update basic.vars (var - 65).toNat value })

def listProgram (basic : Basic) : Basic :=
  let basic := basic.write (ascii "\n=== Program Listing ===\n")
  if basic.lineCount = 0 then basic.write (ascii "(empty)\n")
  else
    (List.range basic.lineCount).foldl
      (fun basic i => basic.write (decimal (basic.lineNumber i) ++ ascii " " ++ basic.program i ++ ascii "\n")) basic

def clearProgram (basic : Basic) : Basic := { basic with lineCount := 0 }.write (ascii "Program cleared\n")

/-- `basic_execute_line`; `run` is `basic_run_program`, which has no result
where it does not return. -/
def executeLineWith (run : Basic → Option Basic) (basic : Basic) (line : List Byte) : Option (Int × Basic) :=
  let line := skipSpaces line
  if line = [] then some (0, basic)
  else if (ascii "PRINT").isPrefixOf line then some (basic.executePrint (line.drop 5))
  else if (ascii "LET").isPrefixOf line then some (basic.executeLet (line.drop 3))
  else if isLetter (line.headD 0) ∧ (skipSpaces line.tail).headD 0 = 61 then some (basic.executeLet line)
  else if (ascii "RUN").isPrefixOf line then (run basic).map fun basic => (0, basic)
  else if (ascii "LIST").isPrefixOf line then some (0, basic.listProgram)
  else if (ascii "CLEAR").isPrefixOf line then some (0, basic.clearProgram)
  else some (-1, basic)

/-- The loop of `basic_run_program` from `pc` on; a line that runs the program
starts it again. `none`: more than `fuel` lines. -/
def runFrom : Nat → Basic → Option Basic
  | 0, _ => none
  | fuel + 1, basic =>
    if basic.pc < basic.lineCount ∧ basic.running then do
      let again (basic : Basic) := runFrom fuel { basic with running := true, pc := 0 }
      let (ret, basic) ← executeLineWith again basic (basic.program basic.pc)
      if ret < 0 then
        let basic := basic.write (ascii "Error at line " ++ decimal (basic.lineNumber basic.pc) ++ ascii "\n")
        return { basic with running := false }
      runFrom fuel { basic with pc := basic.pc + 1 }
    else some { basic with running := false }

def runProgram (fuel : Nat) (basic : Basic) : Option Basic := runFrom fuel { basic with running := true, pc := 0 }

def executeLine (fuel : Nat) (basic : Basic) (line : List Byte) : Option (Int × Basic) :=
  executeLineWith (runProgram fuel) basic line

/-- The loop of `basic_add_line` over the stored lines from `i` on: the index at
which it ends, and whether that line has the number. -/
def findLine (basic : Basic) (lineNum : Word) : Nat → Nat → Nat × Bool
  | 0, i => (i, false)
  | turns + 1, i =>
    if basic.lineNumber i = lineNum then (i, true)
    else if basic.lineNumber i > lineNum then (i, false)
    else findLine basic lineNum turns (i + 1)

/-- One turn of the loop that makes room: line `i` becomes line `i + 1`. -/
def shiftLine (basic : Basic) (i : Nat) : Basic :=
  let lines := basic.lines.setWord (numberOffset (i + 1)) (basic.lineNumber i)
  { basic with lines := Lib.strncpy lines (rowOffset (i + 1)) (fun place => lines (rowOffset i + place)) basicMaxLineLen }

def shiftLines (insertIdx : Nat) : Nat → Basic → Basic
  | 0, basic => basic
  | i + 1, basic => if i + 1 > insertIdx then shiftLines insertIdx i (basic.shiftLine i) else basic

def setProgram (basic : Basic) (i : Nat) (line : CString) : Basic :=
  { basic with lines := Lib.setText basic.lines (rowOffset i) line basicMaxLineLen }

def addLine (basic : Basic) (lineNum : Word) (line : CString) : Int × Basic :=
  if basicMaxProgramLines ≤ basic.lineCount then (-1, basic)
  else
    match basic.findLine lineNum basic.lineCount 0 with
    | (i, true) => (0, basic.setProgram i line)
    | (insertIdx, false) =>
      let shifted := shiftLines insertIdx basic.lineCount basic
      let numbered := { shifted with lines := shifted.lines.setWord (numberOffset insertIdx) lineNum }
      (0, { numbered.setProgram insertIdx line with lineCount := basic.lineCount + 1 })

end Basic

end MexOS.Ui
