import MexOS.Machine.Strings

/-! The virtual terminals of `ui/vterm.c`.

A call that reads or writes outside a buffer has no result: `none`. -/

namespace MexOS.Ui

open MexOS.Machine

def vtermWidth : Word := 80
def vtermHeight : Word := 25
def vtermScrollback : Word := 200
def vtermBufferSize : Nat := 16000
def vtermVisibleSize : Nat := 2000

/-- Characters with their colours, by position. -/
abbrev Cells := Nat → BitVec 16

def vgaEntryColor (fg bg : Byte) : Byte := fg ||| bg <<< 4

def vgaEntry (c color : Byte) : BitVec 16 := c.setWidth 16 ||| color.setWidth 16 <<< 8

namespace Cells

/-- Write one cell of a terminal's buffer. -/
def store (buffer : Cells) (index : Nat) (entry : BitVec 16) : Option Cells :=
  if index < vtermBufferSize then some (Function.update buffer index entry) else none

/-- The loop of `vterm_clear`. -/
def blankAll (buffer : Cells) (color : Byte) : Option Cells :=
  (List.range vtermBufferSize).foldlM (fun buffer i => buffer.store i (vgaEntry 32 color)) buffer

/-- The inner loop that moves row `y + 1` up. -/
def moveRow (buffer : Cells) (y : Nat) : Option Cells :=
  (List.range 80).foldlM (fun buffer x => buffer.store (y * 80 + x) (buffer ((y + 1) * 80 + x))) buffer

def blankLastRow (buffer : Cells) (color : Byte) : Option Cells :=
  (List.range 80).foldlM (fun buffer x => buffer.store (199 * 80 + x) (vgaEntry 32 color)) buffer

end Cells

/-- A `struct vterm`. -/
structure Vterm where
  buffer : Cells
  cursorRow : Word
  cursorCol : Word
  scrollOffset : Word
  totalLines : Word
  color : Byte
  active : Bool

namespace Vterm

def scroll (vt : Vterm) : Option Vterm := do
  let buffer ← (List.range 199).foldlM Cells.moveRow vt.buffer
  let buffer ← buffer.blankLastRow vt.color
  return { vt with
    buffer
    totalLines := if vt.totalLines < vtermScrollback then vt.totalLines + 1 else vt.totalLines
    cursorRow := vtermScrollback - 1
    scrollOffset := 0 }

/-- Write the cell under the cursor. -/
def poke (vt : Vterm) (c : Byte) : Option Vterm :=
  (vt.buffer.store (vt.cursorRow * vtermWidth + vt.cursorCol).toNat (vgaEntry c vt.color)).map fun buffer =>
    { vt with buffer }

/-- Go to the next row, which may scroll the buffer. -/
def nextRow (vt : Vterm) : Option Vterm :=
  let vt := { vt with cursorRow := vt.cursorRow + 1 }
  if vt.cursorRow ≥ vtermScrollback then vt.scroll else some vt

/-- Go to the next row when the cursor has left this one. -/
def wrap (vt : Vterm) : Option Vterm :=
  if vt.cursorCol ≥ vtermWidth then nextRow { vt with cursorCol := 0 } else some vt

def countLines (vt : Vterm) : Vterm :=
  if vt.totalLines < vt.cursorRow + 1 then { vt with totalLines := vt.cursorRow + 1 } else vt

/-- `vterm_putchar_internal` before it refreshes. No byte from 0x80 on is
printed, whether `char` is signed or not. -/
def putcharInternal (vt : Vterm) (c : Byte) : Option Vterm :=
  let vt := { vt with scrollOffset := 0 }
  if c = 0x0A then (nextRow { vt with cursorCol := 0 }).map countLines
  else if c = 0x0D then some { vt with cursorCol := 0 }
  else if c = 0x08 then
    if vt.cursorCol > 0 then poke { vt with cursorCol := vt.cursorCol - 1 } 0x20 else some vt
  else if c = 0x09 then wrap { vt with cursorCol := (vt.cursorCol + 8) &&& ~~~7 }
  else if 0x20 ≤ c ∧ c < 0x7F then do
    let vt ← vt.poke c
    (wrap { vt with cursorCol := vt.cursorCol + 1 }).map countLines
  else some vt

def currentViewEnd (vt : Vterm) : Word := if vt.cursorRow + 1 < vtermHeight then vtermHeight else vt.cursorRow + 1

def maxOffset (vt : Vterm) : Word :=
  if vt.currentViewEnd > vtermHeight then vt.currentViewEnd - vtermHeight else 0

def clampScroll (vt : Vterm) : Vterm :=
  if vt.scrollOffset > vt.maxOffset then { vt with scrollOffset := vt.maxOffset } else vt

/-- Where the visible part of the buffer starts. -/
def viewStart (vt : Vterm) : Word :=
  if vt.scrollOffset = 0 then
    if vt.cursorRow ≥ vtermHeight then (vt.cursorRow - vtermHeight + 1) * vtermWidth else 0
  else (vt.currentViewEnd - vtermHeight - vt.clampScroll.scrollOffset) * vtermWidth

/-- The position that the registers of the hardware cursor are set to; 0xFFFF
hides it. -/
def cursorPos (vt : Vterm) : BitVec 16 :=
  if vt.scrollOffset = 0 then
    let visibleRow := if vt.cursorRow ≥ vtermHeight then vtermHeight - 1 else vt.cursorRow
    (visibleRow * vtermWidth + vt.cursorCol).setWidth 16
  else 0xFFFF

end Vterm

instance terminals_neZero : NeZero 4 := ⟨by decide⟩

/-- The statics of `vterm.c`, the memory of the display and its cursor. -/
structure Terminals where
  terminals : Fin 4 → Vterm
  active : Fin 4
  altPressed : Byte
  vga : Cells
  cursor : BitVec 16

namespace Terminals

def set (s : Terminals) (id : Fin 4) (vt : Vterm) : Terminals :=
  { s with terminals := Function.update s.terminals id vt }

def vtermGetActive (s : Terminals) : Vterm := s.terminals s.active

def refresh (s : Terminals) : Option Terminals :=
  let vt := s.vtermGetActive
  let viewStart := vt.viewStart.toNat
  -- Only the second branch of the source clamps, but an offset of 0 is never above the limit.
  let shown := vt.clampScroll
  if vtermBufferSize < viewStart + vtermVisibleSize then none
  else some { s.set s.active shown with
    vga := fun i => if i < vtermVisibleSize then vt.buffer (viewStart + i) else s.vga i
    cursor := shown.cursorPos }

/-- Store a terminal and show it, if it is the one on the display. -/
def update (s : Terminals) (id : Fin 4) (vt : Vterm) : Option Terminals :=
  if vt.active then (s.set id vt).refresh else some (s.set id vt)

def init (s : Terminals) : Option Terminals := do
  let color := vgaEntryColor 7 0
  let buffer ← Cells.blankAll (fun _ => 0) color
  refresh { s with
    terminals := fun i =>
      { buffer, cursorRow := 0, cursorCol := 0, scrollOffset := 0, totalLines := 0, color, active := i = 0 }
    active := 0 }

def vtermSwitch (s : Terminals) (id : Byte) : Option (Int × Terminals) :=
  if inside : id.toNat < 4 then
    let next : Fin 4 := ⟨id.toNat, inside⟩
    if next = s.active then some (0, s)
    else
      let s := s.set s.active { s.terminals s.active with active := false }
      let s := { s with active := next }
      let s := s.set s.active { s.terminals s.active with active := true }
      s.refresh.map fun s => (0, s)
  else some (-1, s)

/-- `none` is a NULL terminal, here and in the functions below. The copy that
goes to the serial port is not modelled. -/
def putchar (s : Terminals) (vt : Option (Fin 4)) (c : Byte) : Option Terminals :=
  match vt with
  | none => some s
  | some id => ((s.terminals id).putcharInternal c).bind (s.update id)

def write (s : Terminals) (vt : Option (Fin 4)) (str : Option CString) : Option Terminals :=
  match vt, str with
  | some id, some str => (str.bytes.foldlM Vterm.putcharInternal (s.terminals id)).bind (s.update id)
  | _, _ => some s

def clear (s : Terminals) (vt : Option (Fin 4)) : Option Terminals :=
  match vt with
  | none => some s
  | some id =>
    ((s.terminals id).buffer.blankAll (s.terminals id).color).bind fun buffer =>
      s.update id { s.terminals id with buffer, cursorRow := 0, cursorCol := 0, scrollOffset := 0, totalLines := 0 }

def setColor (s : Terminals) (vt : Option (Fin 4)) (fg bg : Byte) : Terminals :=
  match vt with
  | none => s
  | some id => s.set id { s.terminals id with color := vgaEntryColor fg bg }

def scrollUp (s : Terminals) (vt : Option (Fin 4)) (lines : Word) : Option Terminals :=
  match vt with
  | none => some s
  | some id =>
    let vt := s.terminals id
    s.update id { vt with scrollOffset := vt.scrollOffset + lines }.clampScroll

def scrollDown (s : Terminals) (vt : Option (Fin 4)) (lines : Word) : Option Terminals :=
  match vt with
  | none => some s
  | some id =>
    let vt := s.terminals id
    s.update id { vt with scrollOffset := if vt.scrollOffset ≥ lines then vt.scrollOffset - lines else 0 }

def scrollReset (s : Terminals) (vt : Option (Fin 4)) : Option Terminals :=
  match vt with
  | none => some s
  | some id => s.update id { s.terminals id with scrollOffset := 0 }

/-- The terminal that a function key stands for. -/
def functionKey (scancode : Byte) : Option Byte :=
  if scancode = 0x3B then some 0
  else if scancode = 0x3C then some 1
  else if scancode = 0x3D then some 2
  else if scancode = 0x3E then some 3
  else none

def handleSwitch (s : Terminals) (scancode : Byte) : Option (Bool × Terminals) :=
  let vt := s.vtermGetActive
  if scancode = 0x38 then some (false, { s with altPressed := 1 })
  else if scancode = 0xB8 then some (false, { s with altPressed := 0 })
  else if scancode = 0x49 then (s.scrollUp s.active (vtermHeight - 1)).map fun s => (true, s)
  else if scancode = 0x51 then (s.scrollDown s.active (vtermHeight - 1)).map fun s => (true, s)
  else if scancode = 0x47 ∧ s.altPressed ≠ 0 then
    (s.set s.active { vt with scrollOffset := vt.maxOffset }).refresh.map fun s => (true, s)
  else if scancode = 0x4F ∧ s.altPressed ≠ 0 then (s.scrollReset s.active).map fun s => (true, s)
  else if s.altPressed = 0 then some (false, s)
  else
    match functionKey scancode with
    | none => some (false, s)
    | some newTerm =>
      if newTerm.toNat < 4 ∧ newTerm.toNat ≠ s.active.val then (s.vtermSwitch newTerm).map fun result => (true, result.2)
      else some (false, s)

end Terminals

end MexOS.Ui
