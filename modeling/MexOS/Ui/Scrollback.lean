import MexOS.Ui.VtermState

/-! The buffer of a terminal is the end of what a terminal with room for any
number of rows would hold. -/

namespace MexOS.Ui

open MexOS.Machine

/-- A terminal that never scrolls: the characters by row and column. -/
structure Reference where
  cell : Nat → Nat → Byte
  row : Nat
  col : Nat

namespace Reference

def blank : Reference := ⟨fun _ _ => 32, 0, 0⟩

def poke (r : Reference) (c : Byte) : Reference :=
  { r with cell := fun row col => if row = r.row ∧ col = r.col then c else r.cell row col }

@[simp] theorem poke_row (r : Reference) (c : Byte) : (r.poke c).row = r.row := rfl

@[simp] theorem poke_cell (r : Reference) (c : Byte) (row col : Nat) :
    (r.poke c).cell row col = if row = r.row ∧ col = r.col then c else r.cell row col := rfl

def wrap (r : Reference) : Reference := if 80 ≤ r.col then { r with row := r.row + 1, col := 0 } else r

/-- The rules of the terminal for newline, carriage return, backspace, tab and
printable characters; other bytes are ignored. -/
def put (r : Reference) (c : Byte) : Reference :=
  if c = 0x0A then { r with row := r.row + 1, col := 0 }
  else if c = 0x0D then { r with col := 0 }
  else if c = 0x08 then if 0 < r.col then poke { r with col := r.col - 1 } 32 else r
  else if c = 0x09 then wrap { r with col := (r.col + 8) / 8 * 8 }
  else if 0x20 ≤ c ∧ c < 0x7F then wrap { r.poke c with col := r.col + 1 }
  else r

end Reference

/-- The rows that have left the buffer of 200 rows. -/
def lostRows (row : Nat) : Nat := row - 199

theorem lostRows_eq (row : Nat) : lostRows row = row - 199 := rfl

/-- The character of a cell. -/
def charOf (entry : BitVec 16) : Byte := entry.setWidth 8

theorem charOf_vgaEntry (c color : Byte) : charOf (vgaEntry c color) = c := by
  apply BitVec.eq_of_getLsbD_eq
  intro i bound
  simp [charOf, vgaEntry, bound]

/-- The terminal shows the end of the reference, whose cursor may be one column
behind the last one until the row is wrapped. -/
structure Mirrors (vt : Vterm) (r : Reference) : Prop where
  row : vt.cursorRow.toNat = r.row - lostRows r.row
  col : vt.cursorCol.toNat = r.col
  cells : ∀ i j, i < 200 → j < 80 → charOf (vt.buffer (i * 80 + j)) = r.cell (i + lostRows r.row) j
  behind : ∀ i j, r.row < i → j < 80 → r.cell i j = 32

namespace Mirrors

variable {vt : Vterm} {r : Reference}

theorem row_lt (mirrors : Mirrors vt r) : vt.cursorRow < 200 := by
  have row := mirrors.row
  have lost := lostRows_eq r.row
  bv_omega

/-- Counters other than the cursor do not matter. -/
theorem congr {other : Vterm} (mirrors : Mirrors vt r) (buffer : other.buffer = vt.buffer)
    (row : other.cursorRow = vt.cursorRow) (col : other.cursorCol = vt.cursorCol) : Mirrors other r where
  row := by rw [row, mirrors.row]
  col := by rw [col, mirrors.col]
  cells i j rowIn colIn := by rw [buffer, mirrors.cells i j rowIn colIn]
  behind := mirrors.behind

theorem moveCol (mirrors : Mirrors vt r) {col : Word} {col' : Nat} (same : col.toNat = col') :
    Mirrors { vt with cursorCol := col } { r with col := col' } :=
  ⟨mirrors.row, same, mirrors.cells, mirrors.behind⟩

theorem poke (mirrors : Mirrors vt r) (col : vt.cursorCol < 80) (c : Byte) : Mirrors { vt with
    buffer := Function.update vt.buffer (vt.cursorRow.toNat * 80 + vt.cursorCol.toNat) (vgaEntry c vt.color) }
      (r.poke c) where
  row := mirrors.row
  col := mirrors.col
  cells i j rowIn colIn := by
    have row := mirrors.row
    have column := mirrors.col
    have here : vt.cursorCol.toNat < 80 := col
    rw [Reference.poke_cell, Reference.poke_row]
    dsimp only
    have lost := lostRows_eq r.row
    by_cases cursor : i + lostRows r.row = r.row ∧ j = r.col
    · have index : i * 80 + j = vt.cursorRow.toNat * 80 + vt.cursorCol.toNat := by
        have same : i = vt.cursorRow.toNat := by omega
        rw [same, cursor.2, column]
      rw [if_pos cursor, index, Function.update_self, charOf_vgaEntry]
    · have index : i * 80 + j ≠ vt.cursorRow.toNat * 80 + vt.cursorCol.toNat := by
        intro same
        apply cursor
        omega
      rw [if_neg cursor, Function.update_of_ne index]
      exact mirrors.cells i j rowIn colIn
  behind i j later colIn := by
    rw [Reference.poke_row] at later
    rw [Reference.poke_cell, if_neg (by omega)]
    exact mirrors.behind i j later colIn

/-- A new row of the reference is the next row of the buffer or, when there is
none, the blank one that scrolling brings in. -/
theorem nextRow (mirrors : Mirrors vt r) (first : vt.cursorCol = 0) : ∃ after, vt.nextRow = some after ∧
    Mirrors after { r with row := r.row + 1, col := 0 } ∧ after.cursorCol = 0 := by
  have row := mirrors.row
  have zero : (0 : Word).toNat = 0 := rfl
  have lost := lostRows_eq r.row
  have nextLost := lostRows_eq (r.row + 1)
  refine ⟨_, Vterm.nextRow_eq mirrors.row_lt, ?_⟩
  split
  · next last =>
    have reached : lostRows (r.row + 1) = lostRows r.row + 1 := by bv_omega
    refine ⟨⟨?_, ?_, ?_, ?_⟩, first⟩
    · simp only
      bv_omega
    · simp only [first]
      exact zero
    · intro i j rowIn colIn
      change charOf (Cells.scrolled vt.buffer vt.color (i * 80 + j)) = r.cell (i + lostRows (r.row + 1)) j
      rw [Cells.scrolled]
      by_cases moved : i < 199
      · have below : i * 80 + j + 80 = (i + 1) * 80 + j := by omega
        have same : i + lostRows (r.row + 1) = i + 1 + lostRows r.row := by omega
        rw [if_pos (by omega), below, same]
        exact mirrors.cells (i + 1) j (by omega) colIn
      · rw [if_neg (by omega), if_pos (by omega), charOf_vgaEntry]
        refine (mirrors.behind _ j ?_ colIn).symm
        omega
    · intro i j later colIn
      exact mirrors.behind i j (Nat.lt_of_succ_lt later) colIn
  · next more =>
    have few : r.row < 199 := by bv_omega
    have still : lostRows (r.row + 1) = lostRows r.row := by omega
    refine ⟨⟨?_, ?_, ?_, ?_⟩, first⟩
    · simp only
      bv_omega
    · simp only [first]
      exact zero
    · intro i j rowIn colIn
      change charOf (vt.buffer (i * 80 + j)) = r.cell (i + lostRows (r.row + 1)) j
      rw [still]
      exact mirrors.cells i j rowIn colIn
    · intro i j later colIn
      exact mirrors.behind i j (Nat.lt_of_succ_lt later) colIn

theorem wrap (mirrors : Mirrors vt r) : ∃ after, vt.wrap = some after ∧ Mirrors after r.wrap ∧ after.cursorCol < 80 := by
  have col := mirrors.col
  rw [Vterm.wrap, Reference.wrap, vtermWidth]
  by_cases past : vt.cursorCol ≥ 80
  · have behind : 80 ≤ r.col := by bv_omega
    rw [if_pos past, if_pos behind]
    have zero : (0 : Word).toNat = 0 := rfl
    obtain ⟨after, taken, next, first⟩ := (mirrors.moveCol zero).nextRow rfl
    refine ⟨after, taken, next, ?_⟩
    rw [first]
    decide
  · have inside : ¬ 80 ≤ r.col := by bv_omega
    rw [if_neg past, if_neg inside]
    exact ⟨vt, rfl, mirrors, by bv_omega⟩

theorem countLines (mirrors : Mirrors vt r) : Mirrors vt.countLines r := by
  rw [Vterm.countLines]
  split
  · exact mirrors.congr rfl rfl rfl
  · exact mirrors

theorem countLines_col (vt : Vterm) : vt.countLines.cursorCol = vt.cursorCol := by
  rw [Vterm.countLines]
  split <;> rfl

/-- The next multiple of 8, by masking and by division. -/
theorem tab_toNat {col : Word} (small : col < 80) : ((col + 8) &&& ~~~7).toNat = (col.toNat + 8) / 8 * 8 := by
  have sum : (col + 8).toNat = col.toNat + 8 := by bv_omega
  have masked : ((col + 8) &&& ~~~7).toNat = (col + 8).toNat / 2 ^ 3 * 2 ^ 3 := toNat_and_not_mask (col + 8) 3
  rw [masked, sum, Nat.pow_succ]

/-- Both terminals take a character in the same way. -/
theorem put (mirrors : Mirrors vt r) (col : vt.cursorCol < 80) (c : Byte) : ∃ after, vt.putcharInternal c = some after ∧
    Mirrors after (r.put c) ∧ after.cursorCol < 80 := by
  have start : Mirrors { vt with scrollOffset := 0 } r := mirrors.congr rfl rfl rfl
  have column := mirrors.col
  have zero : (0 : Word).toNat = 0 := rfl
  have first : (0 : Word) < 80 := by decide
  have counted {step : Option Vterm} {next : Reference}
      (spec : ∃ after, step = some after ∧ Mirrors after next ∧ after.cursorCol < 80) :
      ∃ after, step.map Vterm.countLines = some after ∧ Mirrors after next ∧ after.cursorCol < 80 := by
    obtain ⟨after, taken, same, inside⟩ := spec
    refine ⟨after.countLines, by rw [taken, Option.map_some], same.countLines, ?_⟩
    rw [countLines_col]
    exact inside
  unfold Vterm.putcharInternal Reference.put
  dsimp only
  split
  · obtain ⟨after, taken, next, here⟩ := (start.moveCol zero).nextRow rfl
    exact counted ⟨after, taken, next, here ▸ first⟩
  · split
    · exact ⟨_, rfl, start.moveCol zero, first⟩
    · split
      · by_cases positive : vt.cursorCol > 0
        · have left : vt.cursorCol - 1 < 80 := by bv_omega
          have back : (vt.cursorCol - 1).toNat = r.col - 1 := by bv_omega
          rw [if_pos positive, if_pos (by bv_omega)]
          exact ⟨_, @Vterm.poke_eq { vt with scrollOffset := 0, cursorCol := vt.cursorCol - 1 } mirrors.row_lt left 0x20,
            (start.moveCol back).poke left 0x20, left⟩
        · rw [if_neg positive, if_neg (by bv_omega)]
          exact ⟨_, rfl, start, col⟩
      · split
        · have masked := tab_toNat col
          rw [column] at masked
          exact (start.moveCol masked).wrap
        · split
          · have right : (vt.cursorCol + 1).toNat = r.col + 1 := by bv_omega
            rw [@Vterm.poke_eq { vt with scrollOffset := 0 } mirrors.row_lt col c, Option.bind_eq_bind, Option.bind_some]
            exact counted ((start.poke col c).moveCol right).wrap
          · exact ⟨_, rfl, start, col⟩

theorem putAll (mirrors : Mirrors vt r) (col : vt.cursorCol < 80) (bytes : List Byte) :
    ∃ after, bytes.foldlM Vterm.putcharInternal vt = some after ∧ Mirrors after (bytes.foldl Reference.put r) ∧
      after.cursorCol < 80 := by
  induction bytes generalizing vt r with
  | nil => exact ⟨vt, rfl, mirrors, col⟩
  | cons c rest ih =>
    obtain ⟨middle, first, between, inside⟩ := mirrors.put col c
    obtain ⟨after, later, last, still⟩ := ih between inside
    refine ⟨after, ?_, last, still⟩
    rw [List.foldlM_cons, first]
    exact later

/-- The last 25 rows of the reference, as long as they are not scrolled back. -/
theorem view (mirrors : Mirrors vt r) (sane : vt.Sane) (zero : vt.scrollOffset = 0) {i j : Nat} (row : i < 25)
    (col : j < 80) : charOf (vt.buffer (vt.viewStart.toNat + (i * 80 + j))) = r.cell (max 0 (r.row - 24) + i) j := by
  have cursor := mirrors.row
  have lost := lostRows_eq r.row
  have offset : (0 : Word).toNat = 0 := rfl
  have start := Vterm.viewStart_eq sane
  rw [zero, offset] at start
  obtain ⟨first, named⟩ : ∃ first, first = max 25 (vt.cursorRow.toNat + 1) - 25 := ⟨_, rfl⟩
  rw [← named, Nat.sub_zero] at start
  have place : vt.viewStart.toNat + (i * 80 + j) = (first + i) * 80 + j := by omega
  have same : first + i + lostRows r.row = max 0 (r.row - 24) + i := by omega
  rw [place, ← same]
  exact mirrors.cells (first + i) j (by omega) col

end Mirrors

/-- What is written to a terminal. -/
inductive Output where
  | putchar (c : Byte)
  | write (str : CString)

namespace Output

def bytes : Output → List Byte
  | putchar c => [c]
  | write str => str.bytes

def call (id : Fin 4) : Output → Terminals.Call
  | putchar c => .putchar id c
  | write str => .write id str

end Output

namespace Terminals

variable {s after : Terminals} {id : Fin 4} {vt : Vterm} {r : Reference}

theorem Sound.update_terminal (sound : Sound s) (sane : vt.Sane) (same : vt.active = (s.terminals id).active)
    (result : s.update id vt = some after) : after.terminals id = vt := by
  obtain ⟨allSane, _⟩ := sound.set_sane sane same
  rw [Terminals.update] at result
  split at result
  · rw [refresh_eq (allSane _), Option.some.injEq] at result
    subst result
    exact Function.update_self _ _ _
  · obtain rfl := Option.some.inj result
    exact Function.update_self _ _ _

/-- The terminal is where the reference is, and not scrolled back. -/
structure Follows (s : Terminals) (id : Fin 4) (r : Reference) : Prop where
  sound : Sound s
  mirrors : Mirrors (s.terminals id) r
  end_ : (s.terminals id).scrollOffset = 0

theorem Follows.output (follows : Follows s id r) (output : Output) :
    ∃ after, (output.call id).run s = some after ∧ Follows after id (output.bytes.foldl Reference.put r) := by
  have sane := follows.sound.sane id
  cases output with
  | putchar c =>
    obtain ⟨vt, taken, next, zero, active⟩ := Vterm.putcharInternal_sane sane c
    obtain ⟨same, again, mirrors, _⟩ := follows.mirrors.put sane.col c
    obtain rfl : vt = same := Option.some.inj (taken.symm.trans again)
    obtain ⟨after, result, kept⟩ := follows.sound.update next active
    have terminal := follows.sound.update_terminal next active result
    refine ⟨after, ?_, kept.sound, ?_, ?_⟩
    · rw [Output.call, Call.run, Terminals.putchar, taken, Option.bind_some, result]
    · rw [terminal]
      exact mirrors
    · rw [terminal, zero]
  | write str =>
    obtain ⟨vt, taken, next, zero, active⟩ := Vterm.write_sane sane str.bytes
    obtain ⟨same, again, mirrors, _⟩ := follows.mirrors.putAll sane.col str.bytes
    obtain rfl : vt = same := Option.some.inj (taken.symm.trans again)
    obtain ⟨after, result, kept⟩ := follows.sound.update next active
    have terminal := follows.sound.update_terminal next active result
    refine ⟨after, ?_, kept.sound, ?_, ?_⟩
    · rw [Output.call, Call.run, Terminals.write, taken, Option.bind_some, result]
    · rw [terminal]
      exact mirrors
    · rw [terminal, zero follows.end_]

theorem Follows.outputs (follows : Follows s id r) (outputs : List Output) :
    ∃ after, (outputs.map (Output.call id)).foldlM Call.run s = some after ∧
      Follows after id ((outputs.flatMap Output.bytes).foldl Reference.put r) := by
  induction outputs generalizing s r with
  | nil => exact ⟨s, rfl, follows⟩
  | cons output rest ih =>
    obtain ⟨middle, first, between⟩ := follows.output output
    obtain ⟨after, later, last⟩ := ih between
    refine ⟨after, ?_, ?_⟩
    · rw [List.map_cons, List.foldlM_cons, first]
      exact later
    · rw [List.flatMap_cons, List.foldl_append]
      exact last

theorem Sound.clear_follows (sound : Sound s) (id : Fin 4) :
    ∃ after, (Call.clear id).run s = some after ∧ Follows after id Reference.blank := by
  have first : (0 : Word) < 200 ∧ (0 : Word) < 80 := by decide
  have zero : (0 : Word).toNat = 0 := rfl
  obtain ⟨after, result, kept⟩ := sound.clear id
  have stored := result
  rw [Terminals.clear, Cells.blankAll_eq, Option.bind_some] at stored
  obtain ⟨blank, named⟩ : ∃ blank, blank = vgaEntry 0x20 (s.terminals id).color := ⟨_, rfl⟩
  rw [← named] at stored
  have sane : Vterm.Sane { s.terminals id with
      buffer := fun i => if i < vtermBufferSize then blank else (s.terminals id).buffer i
      cursorRow := 0, cursorCol := 0, scrollOffset := 0, totalLines := 0 } :=
    .of_zero first.1 first.2 (by simp) rfl
  have terminal := sound.update_terminal sane rfl stored
  refine ⟨after, result, kept.sound, ?_, by rw [terminal]⟩
  rw [terminal]
  refine ⟨(Nat.zero_sub _).symm, zero, ?_, fun _ _ _ _ => rfl⟩
  intro i j row col
  have inside : i * 80 + j < vtermBufferSize := by
    rw [vtermBufferSize]
    omega
  dsimp only
  rw [if_pos inside, named, charOf_vgaEntry]
  rfl

end Terminals

open Terminals in
/-- After `vterm_clear`, whatever the terminals were used for before, the buffer
of a terminal holds the last 200 rows of the reference that takes the same
bytes, the cursor is where that of the reference is, and a refresh shows the
last 25 rows. -/
theorem scrollback_is_tail (s : Terminals) (calls : List Call) (id : Fin 4) (outputs : List Output) :
    ∃ after, (s.init.bind fun first =>
        (calls ++ Call.clear id :: outputs.map (Output.call id)).foldlM Call.run first) = some after ∧
      let r := (outputs.flatMap Output.bytes).foldl Reference.put Reference.blank
      let k := max 0 (r.row - 199)
      (∀ i < 200, ∀ j < 80, charOf ((after.terminals id).buffer (i * 80 + j)) = r.cell (i + k) j) ∧
      (after.terminals id).cursorRow.toNat = r.row - k ∧ (after.terminals id).cursorCol.toNat = r.col ∧
      (after.terminals id).scrollOffset = 0 ∧
      ∃ refreshed, after.refresh = some refreshed ∧ (after.active = id →
        ∀ i < 25, ∀ j < 80, charOf (refreshed.vga (i * 80 + j)) = r.cell (max 0 (r.row - 24) + i) j) := by
  obtain ⟨first, started, sound, _⟩ := init_sound s
  obtain ⟨before, ran, soundBefore⟩ := sound.runAll calls
  obtain ⟨blank, cleared, follows⟩ := soundBefore.clear_follows id
  obtain ⟨after, written, last⟩ := follows.outputs outputs
  refine ⟨after, ?_, ?_⟩
  · rw [started, Option.bind_some, List.foldlM_append, ran, Option.bind_eq_bind, Option.bind_some, List.foldlM_cons,
      cleared]
    exact written
  generalize (outputs.flatMap Output.bytes).foldl Reference.put Reference.blank = r at last
  have mirrors := last.mirrors
  have lost : max 0 (r.row - 199) = lostRows r.row := by
    rw [lostRows_eq]
    exact Nat.max_eq_right (Nat.zero_le _)
  dsimp only
  rw [lost]
  refine ⟨fun i row j col => mirrors.cells i j row col, mirrors.row, mirrors.col, last.end_, _,
    refresh_eq (last.sound.sane _), ?_⟩
  intro shown i row j col
  have inside : i * 80 + j < vtermVisibleSize := by
    rw [vtermVisibleSize]
    omega
  dsimp only
  rw [if_pos inside, vtermGetActive, shown]
  exact mirrors.view (last.sound.sane id) last.end_ row col

end MexOS.Ui
