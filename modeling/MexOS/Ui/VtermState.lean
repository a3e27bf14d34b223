import MexOS.Ui.Vterm

/-! What every virtual terminal keeps: its cursor and its view stay inside the
buffer, whatever is called. -/

namespace MexOS.Ui

open MexOS.Machine

/-- The last turn of a loop over a range. -/
theorem foldlM_range_succ (turn : α → Nat → Option α) (start : α) (count : Nat) :
    (List.range (count + 1)).foldlM turn start = ((List.range count).foldlM turn start).bind fun a => turn a count := by
  rw [List.range_succ, List.foldlM_append]
  cases (List.range count).foldlM turn start with
  | none => rfl
  | some a =>
    change (turn a count).bind some = turn a count
    cases turn a count <;> rfl

namespace Cells

variable {buffer : Cells} {color : Byte}

theorem store_eq {index : Nat} (inside : index < vtermBufferSize) (entry : BitVec 16) :
    buffer.store index entry = some (Function.update buffer index entry) := if_pos inside

/-- A loop that writes one value into `count` neighbouring cells. -/
theorem fill_eq {first count : Nat} (inside : first + count ≤ vtermBufferSize) (entry : BitVec 16) :
    (List.range count).foldlM (fun buffer x => Cells.store buffer (first + x) entry) buffer =
      some fun i => if first ≤ i ∧ i < first + count then entry else buffer i := by
  induction count with
  | zero =>
    rw [List.range_zero, List.foldlM_nil]
    congr 1
    funext i
    rw [if_neg (by omega)]
  | succ count ih =>
    rw [foldlM_range_succ, ih (by omega), Option.bind_some, store_eq (by omega)]
    congr 1
    funext i
    by_cases last : i = first + count
    · rw [last, Function.update_self, if_pos (by omega)]
    · rw [Function.update_of_ne last]
      split <;> split <;> first | rfl | omega

theorem blankAll_eq : buffer.blankAll color =
    some fun i => if i < vtermBufferSize then vgaEntry 32 color else buffer i := by
  have filled := @fill_eq buffer 0 vtermBufferSize (by decide) (vgaEntry 32 color)
  simp only [Nat.zero_add, Nat.zero_le, true_and] at filled
  exact filled

theorem blankLastRow_eq : buffer.blankLastRow color =
    some fun i => if 15920 ≤ i ∧ i < 16000 then vgaEntry 32 color else buffer i :=
  @fill_eq buffer 15920 80 (by decide) (vgaEntry 32 color)

/-- Every cell of the row gets the cell below it, which no turn has changed. -/
theorem moveCells_eq {y count : Nat} (row : y < 199) (inside : count ≤ 80) :
    (List.range count).foldlM (fun buffer x => Cells.store buffer (y * 80 + x) (buffer ((y + 1) * 80 + x))) buffer =
      some fun i => if y * 80 ≤ i ∧ i < y * 80 + count then buffer (i + 80) else buffer i := by
  induction count with
  | zero =>
    rw [List.range_zero, List.foldlM_nil]
    congr 1
    funext i
    rw [if_neg (by omega)]
  | succ count ih =>
    have bound : y * 80 + count < vtermBufferSize := by
      rw [vtermBufferSize]
      omega
    rw [foldlM_range_succ, ih (by omega), Option.bind_some, store_eq bound]
    congr 1
    funext i
    by_cases last : i = y * 80 + count
    · have source : (y + 1) * 80 + count = i + 80 := by omega
      rw [← last, Function.update_self, source]
      dsimp only
      rw [if_neg (by omega), if_pos (by omega)]
    · rw [Function.update_of_ne last]
      split <;> split <;> first | rfl | omega

theorem moveRows_eq {count : Nat} (inside : count ≤ 199) : (List.range count).foldlM Cells.moveRow buffer =
    some fun i => if i < count * 80 then buffer (i + 80) else buffer i := by
  induction count with
  | zero => simp
  | succ count ih =>
    rw [foldlM_range_succ, ih (by omega), Option.bind_some, moveRow, moveCells_eq (by omega) (Nat.le_refl _)]
    congr 1
    funext i
    by_cases here : count * 80 ≤ i ∧ i < count * 80 + 80
    · rw [if_pos here, if_neg (by omega), if_pos (by omega)]
    · rw [if_neg here]
      split <;> split <;> first | rfl | omega

/-- All rows one place up, and a blank row behind them. -/
def scrolled (buffer : Cells) (color : Byte) : Cells := fun i =>
  if i < 15920 then buffer (i + 80) else if i < 16000 then vgaEntry 32 color else buffer i

end Cells

namespace Vterm

variable {vt : Vterm}

theorem scroll_eq (vt : Vterm) : vt.scroll = some { vt with
    buffer := vt.buffer.scrolled vt.color
    totalLines := if vt.totalLines < vtermScrollback then vt.totalLines + 1 else vt.totalLines
    cursorRow := vtermScrollback - 1
    scrollOffset := 0 } := by
  have last : (fun i => if 15920 ≤ i ∧ i < 16000 then vgaEntry 32 vt.color else
      if i < 199 * 80 then vt.buffer (i + 80) else vt.buffer i) = vt.buffer.scrolled vt.color := by
    funext i
    rw [Cells.scrolled]
    by_cases low : i < 15920
    · rw [if_neg (by omega), if_pos (by omega), if_pos low]
    · by_cases inside : i < 16000
      · rw [if_pos ⟨by omega, inside⟩, if_neg low, if_pos inside]
      · rw [if_neg (by omega), if_neg (by omega), if_neg low, if_neg inside]
  rw [scroll, Cells.moveRows_eq (Nat.le_refl _), Option.bind_eq_bind, Option.bind_some, Cells.blankLastRow_eq, last]
  rfl

theorem poke_eq (row : vt.cursorRow < 200) (col : vt.cursorCol < 80) (c : Byte) : vt.poke c = some { vt with
    buffer := Function.update vt.buffer (vt.cursorRow.toNat * 80 + vt.cursorCol.toNat) (vgaEntry c vt.color) } := by
  have index : (vt.cursorRow * vtermWidth + vt.cursorCol).toNat = vt.cursorRow.toNat * 80 + vt.cursorCol.toNat := by
    rw [vtermWidth]
    bv_omega
  have inside : vt.cursorRow.toNat * 80 + vt.cursorCol.toNat < vtermBufferSize := by
    rw [vtermBufferSize]
    bv_omega
  rw [poke, index, Cells.store_eq inside, Option.map_some]

theorem nextRow_eq (row : vt.cursorRow < 200) : vt.nextRow = some (if vt.cursorRow = 199 then
    { vt with
      buffer := vt.buffer.scrolled vt.color
      totalLines := if vt.totalLines < vtermScrollback then vt.totalLines + 1 else vt.totalLines
      cursorRow := 199
      scrollOffset := 0 }
    else { vt with cursorRow := vt.cursorRow + 1 }) := by
  rw [nextRow]
  by_cases last : vt.cursorRow = 199
  · have past : vt.cursorRow + 1 ≥ vtermScrollback := by
      rw [last]
      decide
    rw [if_pos last]
    simp only [past, ↓reduceIte]
    exact scroll_eq _
  · have under : ¬ vt.cursorRow + 1 ≥ vtermScrollback := by
      rw [vtermScrollback]
      bv_omega
    rw [if_neg last]
    simp only [under, ↓reduceIte]

/-- The cursor is inside the buffer, and the view does not start above it. -/
structure Sane (vt : Vterm) : Prop where
  row : vt.cursorRow < 200
  col : vt.cursorCol < 80
  lines : vt.totalLines ≤ 200
  offset : vt.scrollOffset.toNat ≤ vt.cursorRow.toNat + 1 - 25

/-- A terminal that is not scrolled back. -/
theorem Sane.of_zero (row : vt.cursorRow < 200) (col : vt.cursorCol < 80) (lines : vt.totalLines ≤ 200)
    (zero : vt.scrollOffset = 0) : Sane vt := by
  refine ⟨row, col, lines, ?_⟩
  rw [zero]
  exact Nat.zero_le _

section Writing

/-- The count of lines stops at the size of the buffer. -/
theorem counted_le {lines : Word} (most : lines ≤ 200) : (if lines < vtermScrollback then lines + 1 else lines) ≤ 200 := by
  by_cases more : lines < vtermScrollback
  · rw [if_pos more]
    rw [vtermScrollback] at more
    bv_omega
  · rw [if_neg more]
    exact most

theorem nextRow_sane (row : vt.cursorRow < 200) (col : vt.cursorCol < 80) (lines : vt.totalLines ≤ 200)
    (zero : vt.scrollOffset = 0) : ∃ after, vt.nextRow = some after ∧ Sane after ∧ after.scrollOffset = 0 ∧
      after.active = vt.active := by
  refine ⟨_, nextRow_eq row, ?_⟩
  split
  · exact ⟨.of_zero (show (199 : Word) < 200 by decide) col (counted_le lines) rfl, rfl, rfl⟩
  · next more =>
    refine ⟨.of_zero ?_ col lines zero, zero, rfl⟩
    simp only
    bv_omega

theorem wrap_sane (row : vt.cursorRow < 200) (lines : vt.totalLines ≤ 200) (zero : vt.scrollOffset = 0) :
    ∃ after, vt.wrap = some after ∧ Sane after ∧ after.scrollOffset = 0 ∧ after.active = vt.active := by
  rw [wrap, vtermWidth]
  split
  · exact @nextRow_sane { vt with cursorCol := 0 } row (show (0 : Word) < 80 by decide) lines zero
  · next inside => exact ⟨vt, rfl, .of_zero row (by bv_omega) lines zero, zero, rfl⟩

theorem Sane.countLines (sane : Sane vt) (zero : vt.scrollOffset = 0) :
    Sane vt.countLines ∧ vt.countLines.scrollOffset = 0 ∧ vt.countLines.active = vt.active := by
  have row := sane.row
  rw [Vterm.countLines]
  split
  · exact ⟨.of_zero row sane.col (by simp only; bv_omega) zero, zero, rfl⟩
  · exact ⟨sane, zero, rfl⟩

/-- Every character is taken, and the view goes back to the end. -/
theorem putcharInternal_sane (sane : Sane vt) (c : Byte) : ∃ after, vt.putcharInternal c = some after ∧ Sane after ∧
    after.scrollOffset = 0 ∧ after.active = vt.active := by
  obtain ⟨row, col, lines, _⟩ := sane
  have start : Sane { vt with scrollOffset := 0 } := .of_zero row col lines rfl
  -- Counting the lines after a step that may have scrolled.
  have counted {step : Option Vterm}
      (spec : ∃ after, step = some after ∧ Sane after ∧ after.scrollOffset = 0 ∧ after.active = vt.active) :
      ∃ after, step.map Vterm.countLines = some after ∧ Sane after ∧ after.scrollOffset = 0 ∧
        after.active = vt.active := by
    obtain ⟨after, taken, sane, zero, active⟩ := spec
    have lines := sane.countLines zero
    exact ⟨after.countLines, by rw [taken, Option.map_some], lines.1, lines.2.1, lines.2.2.trans active⟩
  unfold putcharInternal
  dsimp only
  split
  · exact counted (nextRow_sane row (show (0 : Word) < 80 by decide) lines rfl)
  · split
    · exact ⟨_, rfl, .of_zero row (show (0 : Word) < 80 by decide) lines rfl, rfl, rfl⟩
    · split
      · split
        · next positive =>
          have left : vt.cursorCol - 1 < 80 := by bv_omega
          exact ⟨_, @poke_eq { vt with scrollOffset := 0, cursorCol := vt.cursorCol - 1 } row left 0x20,
            .of_zero row left lines rfl, rfl, rfl⟩
        · exact ⟨_, rfl, start, rfl, rfl⟩
      · split
        · exact wrap_sane row lines rfl
        · split
          · rw [@poke_eq { vt with scrollOffset := 0 } row col c, Option.bind_eq_bind, Option.bind_some]
            exact counted (wrap_sane row lines rfl)
          · exact ⟨_, rfl, start, rfl, rfl⟩

theorem write_sane (sane : Sane vt) (bytes : List Byte) : ∃ after, bytes.foldlM putcharInternal vt = some after ∧
    Sane after ∧ (vt.scrollOffset = 0 → after.scrollOffset = 0) ∧ after.active = vt.active := by
  induction bytes generalizing vt with
  | nil => exact ⟨vt, rfl, sane, id, rfl⟩
  | cons c rest ih =>
    obtain ⟨middle, first, between, zero, kept⟩ := putcharInternal_sane sane c
    obtain ⟨after, later, last, still, same⟩ := ih between
    refine ⟨after, ?_, last, fun _ => still zero, same.trans kept⟩
    rw [List.foldlM_cons, first]
    exact later

end Writing

section View

theorem currentViewEnd_toNat (row : vt.cursorRow < 200) : vt.currentViewEnd.toNat = max 25 (vt.cursorRow.toNat + 1) := by
  rw [currentViewEnd, vtermHeight]
  split <;> bv_omega

/-- How far the view of a terminal goes back at most. -/
theorem maxOffset_toNat (row : vt.cursorRow < 200) : vt.maxOffset.toNat = vt.cursorRow.toNat + 1 - 25 := by
  have viewEnd := currentViewEnd_toNat row
  rw [maxOffset, vtermHeight]
  split <;> bv_omega

theorem clampScroll_eq (sane : Sane vt) : vt.clampScroll = vt := by
  have limit := maxOffset_toNat sane.row
  have offset := sane.offset
  rw [clampScroll, if_neg]
  rw [gt_iff_lt, BitVec.lt_def]
  omega

/-- Whatever the offset was, the view is inside the buffer afterwards. -/
theorem clampScroll_sane (row : vt.cursorRow < 200) (col : vt.cursorCol < 80) (lines : vt.totalLines ≤ 200) :
    Sane vt.clampScroll ∧ vt.clampScroll.active = vt.active := by
  have limit := maxOffset_toNat row
  rw [clampScroll]
  split
  · exact ⟨⟨row, col, lines, Nat.le_of_eq limit⟩, rfl⟩
  · next inside =>
    rw [gt_iff_lt, BitVec.lt_def] at inside
    exact ⟨⟨row, col, lines, by omega⟩, rfl⟩

theorem viewStart_eq (sane : Sane vt) :
    vt.viewStart.toNat = (max 25 (vt.cursorRow.toNat + 1) - 25 - vt.scrollOffset.toNat) * 80 := by
  have row := sane.row
  have offset := sane.offset
  have viewEnd := currentViewEnd_toNat row
  rw [viewStart, clampScroll_eq sane, vtermHeight, vtermWidth]
  split
  · next zero =>
    rw [zero]
    split <;> bv_omega
  · bv_omega

theorem viewStart_inside (sane : Sane vt) : vt.viewStart.toNat + vtermVisibleSize ≤ vtermBufferSize := by
  have row := sane.row
  rw [viewStart_eq sane, vtermVisibleSize, vtermBufferSize]
  bv_omega

/-- The cursor that is shown is on the display. -/
theorem cursorPos_shown (sane : Sane vt) (zero : vt.scrollOffset = 0) : vt.cursorPos.toNat < vtermVisibleSize := by
  have col := sane.col
  rw [cursorPos, if_pos zero]
  dsimp only
  generalize shown : (if vt.cursorRow ≥ vtermHeight then vtermHeight - 1 else vt.cursorRow) = visibleRow
  have visible : visibleRow < 25 := by
    rw [← shown, vtermHeight]
    split <;> bv_omega
  have sum : (visibleRow * vtermWidth + vt.cursorCol).toNat = visibleRow.toNat * 80 + vt.cursorCol.toNat := by
    rw [vtermWidth]
    bv_omega
  have small : visibleRow.toNat * 80 + vt.cursorCol.toNat < 2000 := by bv_omega
  rw [BitVec.toNat_setWidth, sum, vtermVisibleSize, Nat.mod_eq_of_lt (by omega)]
  exact small

theorem cursorPos_spec (sane : Sane vt) : vt.cursorPos = 0xFFFF ∨ vt.cursorPos.toNat < vtermVisibleSize := by
  by_cases zero : vt.scrollOffset = 0
  · exact .inr (cursorPos_shown sane zero)
  · exact .inl (if_neg zero)

end View

end Vterm

namespace Terminals

/-- Every terminal is sane, and the one on the display is marked, no other. -/
structure Sound (s : Terminals) : Prop where
  sane : ∀ id, (s.terminals id).Sane
  active : ∀ id, (s.terminals id).active = true ↔ id = s.active
  cursor : s.cursor = 0xFFFF ∨ s.cursor.toNat < vtermVisibleSize

/-- Refreshing changes nothing but the display. -/
theorem refresh_eq {s : Terminals} (sane : s.vtermGetActive.Sane) : s.refresh = some { s with
    vga := fun i => if i < vtermVisibleSize then s.vtermGetActive.buffer (s.vtermGetActive.viewStart.toNat + i) else s.vga i
    cursor := s.vtermGetActive.cursorPos } := by
  have inside := Vterm.viewStart_inside sane
  have same : s.set s.active s.vtermGetActive = s := by
    rw [set, vtermGetActive, Function.update_eq_self]
  rw [refresh]
  dsimp only
  rw [if_neg (by omega), Vterm.clampScroll_eq sane, same]

theorem refresh_sound {s : Terminals} (sane : ∀ id, (s.terminals id).Sane)
    (active : ∀ id, (s.terminals id).active = true ↔ id = s.active) : ∃ after, s.refresh = some after ∧ Sound after ∧
      after.altPressed = s.altPressed ∧ after.active = s.active :=
  ⟨_, refresh_eq (sane s.active), ⟨sane, active, Vterm.cursorPos_spec (sane s.active)⟩, rfl, rfl⟩

/-- What a call other than a switch leaves. -/
structure Kept (s after : Terminals) : Prop where
  sound : Sound after
  altPressed : after.altPressed = s.altPressed
  active : after.active = s.active

variable {s : Terminals} {id : Fin 4} {vt : Vterm}

theorem Sound.same (sound : Sound s) : Kept s s := ⟨sound, rfl, rfl⟩

theorem Sound.set_sane (sound : Sound s) (sane : vt.Sane) (same : vt.active = (s.terminals id).active) :
    (∀ other, ((s.set id vt).terminals other).Sane) ∧
      ∀ other, ((s.set id vt).terminals other).active = true ↔ other = (s.set id vt).active := by
  constructor
  · intro other
    by_cases here : other = id
    · subst here
      simp only [set, Function.update_self]
      exact sane
    · simp only [set, Function.update_of_ne here]
      exact sound.sane other
  · intro other
    by_cases here : other = id
    · subst here
      simp only [set, Function.update_self, same]
      exact sound.active other
    · simp only [set, Function.update_of_ne here]
      exact sound.active other

theorem Sound.update (sound : Sound s) (sane : vt.Sane) (same : vt.active = (s.terminals id).active) :
    ∃ after, s.update id vt = some after ∧ Kept s after := by
  obtain ⟨allSane, allActive⟩ := sound.set_sane sane same
  rw [Terminals.update]
  split
  · obtain ⟨after, result, next, alt, active⟩ := refresh_sound allSane allActive
    exact ⟨after, result, next, alt, active⟩
  · exact ⟨_, rfl, ⟨allSane, allActive, sound.cursor⟩, rfl, rfl⟩

theorem Sound.putchar (sound : Sound s) (vt : Option (Fin 4)) (c : Byte) :
    ∃ after, s.putchar vt c = some after ∧ Kept s after := by
  cases vt with
  | none => exact ⟨s, rfl, sound.same⟩
  | some id =>
    obtain ⟨after, taken, sane, _, active⟩ := Vterm.putcharInternal_sane (sound.sane id) c
    rw [Terminals.putchar, taken, Option.bind_some]
    exact sound.update sane active

theorem Sound.write (sound : Sound s) (vt : Option (Fin 4)) (str : Option CString) :
    ∃ after, s.write vt str = some after ∧ Kept s after := by
  cases vt with
  | none => exact ⟨s, by cases str <;> rfl, sound.same⟩
  | some id =>
    cases str with
    | none => exact ⟨s, rfl, sound.same⟩
    | some str =>
      obtain ⟨after, taken, sane, _, active⟩ := Vterm.write_sane (sound.sane id) str.bytes
      rw [Terminals.write, taken, Option.bind_some]
      exact sound.update sane active

theorem Sound.clear (sound : Sound s) (vt : Option (Fin 4)) : ∃ after, s.clear vt = some after ∧ Kept s after := by
  cases vt with
  | none => exact ⟨s, rfl, sound.same⟩
  | some id =>
    rw [Terminals.clear, Cells.blankAll_eq, Option.bind_some]
    have first : (0 : Word) < 200 ∧ (0 : Word) < 80 := by decide
    exact sound.update (.of_zero first.1 first.2 (by simp) rfl) rfl

theorem Sound.setColor (sound : Sound s) (vt : Option (Fin 4)) (fg bg : Byte) : Kept s (s.setColor vt fg bg) := by
  cases vt with
  | none => exact sound.same
  | some id =>
    obtain ⟨row, col, lines, offset⟩ := sound.sane id
    obtain ⟨allSane, allActive⟩ := @Sound.set_sane s id { s.terminals id with color := vgaEntryColor fg bg } sound
      ⟨row, col, lines, offset⟩ rfl
    exact ⟨⟨allSane, allActive, sound.cursor⟩, rfl, rfl⟩

theorem Sound.scrollUp (sound : Sound s) (vt : Option (Fin 4)) (lines : Word) :
    ∃ after, s.scrollUp vt lines = some after ∧ Kept s after := by
  cases vt with
  | none => exact ⟨s, rfl, sound.same⟩
  | some id =>
    obtain ⟨row, col, total, _⟩ := sound.sane id
    obtain ⟨sane, active⟩ := @Vterm.clampScroll_sane
      { s.terminals id with scrollOffset := (s.terminals id).scrollOffset + lines } row col total
    exact sound.update sane active

theorem Sound.scrollDown (sound : Sound s) (vt : Option (Fin 4)) (lines : Word) :
    ∃ after, s.scrollDown vt lines = some after ∧ Kept s after := by
  cases vt with
  | none => exact ⟨s, rfl, sound.same⟩
  | some id =>
    obtain ⟨row, col, total, offset⟩ := sound.sane id
    refine sound.update ⟨row, col, total, ?_⟩ rfl
    simp only
    split
    · bv_omega
    · exact Nat.zero_le _

theorem Sound.scrollReset (sound : Sound s) (vt : Option (Fin 4)) :
    ∃ after, s.scrollReset vt = some after ∧ Kept s after := by
  cases vt with
  | none => exact ⟨s, rfl, sound.same⟩
  | some id =>
    obtain ⟨row, col, total, _⟩ := sound.sane id
    exact sound.update (.of_zero row col total rfl) rfl

/-- The mark taken from the terminal on the display and given to another one. -/
def marked (s : Terminals) (next : Fin 4) : Terminals :=
  let s := s.set s.active { s.terminals s.active with active := false }
  let s := { s with active := next }
  s.set s.active { s.terminals s.active with active := true }

theorem Sound.marked (sound : Sound s) (next : Fin 4) :
    (∀ id, ((s.marked next).terminals id).Sane) ∧ ∀ id, ((s.marked next).terminals id).active = true ↔ id = next := by
  constructor
  · intro id
    obtain ⟨row, col, total, offset⟩ := sound.sane id
    simp only [Terminals.marked, set, Function.update_apply]
    split
    · next here =>
      subst here
      split <;> rename_i old <;> first | exact ⟨row, col, total, offset⟩ | (rw [← old]; exact ⟨row, col, total, offset⟩)
    · split
      · next old =>
        rw [← old]
        exact ⟨row, col, total, offset⟩
      · exact ⟨row, col, total, offset⟩
  · intro id
    simp only [Terminals.marked, set, Function.update_apply]
    by_cases here : id = next
    · simp [here]
    · rw [if_neg here]
      by_cases old : id = s.active
      · rw [if_pos old]
        simp only [Bool.false_eq_true, here]
      · rw [if_neg old, sound.active id]
        simp only [old, here]

/-- Switching moves the mark along with the number. -/
theorem Sound.vtermSwitch (sound : Sound s) (id : Byte) :
    ∃ ret after, s.vtermSwitch id = some (ret, after) ∧ Sound after ∧ after.altPressed = s.altPressed ∧
      (id.toNat < 4 → after.active.val = id.toNat) := by
  rw [Terminals.vtermSwitch]
  split
  · next inside =>
    dsimp only
    split
    · next here => exact ⟨0, s, rfl, sound, rfl, fun _ => (congrArg Fin.val here).symm⟩
    · have moved := sound.marked ⟨id.toNat, inside⟩
      obtain ⟨after, result, last, alt, active⟩ := refresh_sound moved.1 moved.2
      refine ⟨0, after, congrArg (Option.map fun s => ((0 : Int), s)) result, last, alt, fun _ => ?_⟩
      rw [active]
      rfl
  · next outside => exact ⟨-1, s, rfl, sound, rfl, fun inside => absurd inside outside⟩

/-- What a scancode may change apart from the display and the view: Alt is
remembered, and a function key takes the terminal while it is. -/
structure Switched (s : Terminals) (scancode : Byte) (after : Terminals) : Prop where
  sound : Sound after
  altPressed : after.altPressed = if scancode = 0x38 then 1 else if scancode = 0xB8 then 0 else s.altPressed
  active : after.active ≠ s.active → s.altPressed ≠ 0 ∧ (functionKey scancode).isSome

theorem Kept.switched {after : Terminals} {scancode : Byte} (kept : Kept s after) (make : scancode ≠ 0x38)
    (break_ : scancode ≠ 0xB8) : Switched s scancode after where
  sound := kept.sound
  altPressed := by rw [if_neg make, if_neg break_, kept.altPressed]
  active moved := absurd kept.active moved

theorem Sound.handleSwitch (sound : Sound s) (scancode : Byte) :
    ∃ handled after, s.handleSwitch scancode = some (handled, after) ∧ Switched s scancode after := by
  have alt (value : Byte) : Sound { s with altPressed := value } := ⟨sound.sane, sound.active, sound.cursor⟩
  unfold Terminals.handleSwitch
  dsimp only
  split
  · next make => exact ⟨false, _, rfl, alt 1, by rw [if_pos make], fun moved => absurd rfl moved⟩
  · next make =>
    split
    · next break_ => exact ⟨false, _, rfl, alt 0, by rw [if_neg make, if_pos break_], fun moved => absurd rfl moved⟩
    · next break_ =>
      -- Scrolling the terminal on the display.
      have scrolled {call : Option Terminals} (spec : ∃ after, call = some after ∧ Kept s after) :
          ∃ handled after, call.map (fun s => (true, s)) = some (handled, after) ∧ Switched s scancode after := by
        obtain ⟨after, taken, kept⟩ := spec
        exact ⟨true, after, by rw [taken, Option.map_some], kept.switched make break_⟩
      split
      · exact scrolled (sound.scrollUp _ _)
      · split
        · exact scrolled (sound.scrollDown _ _)
        · split
          · obtain ⟨row, col, total, _⟩ := sound.sane s.active
            have sane : Vterm.Sane { s.vtermGetActive with scrollOffset := s.vtermGetActive.maxOffset } :=
              ⟨row, col, total, Nat.le_of_eq (Vterm.maxOffset_toNat row)⟩
            obtain ⟨allSane, allActive⟩ := @Sound.set_sane s s.active _ sound sane rfl
            obtain ⟨after, result, next, kept, same⟩ := refresh_sound allSane allActive
            exact scrolled ⟨after, result, next, kept, same⟩
          · split
            · exact scrolled (sound.scrollReset _)
            · split
              · exact ⟨false, s, rfl, sound.same.switched make break_⟩
              · next held =>
                split
                · exact ⟨false, s, rfl, sound.same.switched make break_⟩
                · next newTerm found =>
                  split
                  · obtain ⟨ret, after, result, last, kept, _⟩ := sound.vtermSwitch newTerm
                    refine ⟨true, after, by rw [result, Option.map_some], last, ?_, fun _ => ⟨held, ?_⟩⟩
                    · rw [if_neg make, if_neg break_, kept]
                    · rw [found]
                      rfl
                  · exact ⟨false, s, rfl, sound.same.switched make break_⟩

/-- With Alt held a function key selects its terminal. -/
theorem Sound.handleSwitch_select (sound : Sound s) (held : s.altPressed ≠ 0) {scancode key : Byte}
    (found : functionKey scancode = some key) (inside : key.toNat < 4) :
    ∃ handled after, s.handleSwitch scancode = some (handled, after) ∧ after.active.val = key.toNat := by
  have apart : scancode ≠ 0x38 ∧ scancode ≠ 0xB8 ∧ scancode ≠ 0x49 ∧ scancode ≠ 0x51 ∧ scancode ≠ 0x47 ∧
      scancode ≠ 0x4F := by
    refine ⟨?_, ?_, ?_, ?_, ?_, ?_⟩ <;> rintro rfl <;> simp [functionKey] at found
  obtain ⟨make, break_, up, down, home, last⟩ := apart
  rw [Terminals.handleSwitch, if_neg make, if_neg break_, if_neg up, if_neg down, if_neg fun both => home both.1, if_neg fun both => last both.1,
    if_neg held, found]
  dsimp only
  split
  · next other =>
    obtain ⟨ret, after, result, _, _, active⟩ := sound.vtermSwitch key
    exact ⟨true, after, by rw [result, Option.map_some], active inside⟩
  · next other => exact ⟨false, s, rfl, by omega⟩

/-- The calls on the terminals; a terminal that is `none` is NULL. -/
inductive Call where
  | putchar (vt : Option (Fin 4)) (c : Byte)
  | write (vt : Option (Fin 4)) (str : Option CString)
  | clear (vt : Option (Fin 4))
  | setColor (vt : Option (Fin 4)) (fg bg : Byte)
  | vtermSwitch (id : Byte)
  | scrollUp (vt : Option (Fin 4)) (lines : Word)
  | scrollDown (vt : Option (Fin 4)) (lines : Word)
  | scrollReset (vt : Option (Fin 4))
  | handleSwitch (scancode : Byte)

def Call.run (s : Terminals) : Call → Option Terminals
  | putchar vt c => s.putchar vt c
  | write vt str => s.write vt str
  | clear vt => s.clear vt
  | setColor vt fg bg => some (s.setColor vt fg bg)
  | vtermSwitch id => (s.vtermSwitch id).map Prod.snd
  | scrollUp vt lines => s.scrollUp vt lines
  | scrollDown vt lines => s.scrollDown vt lines
  | scrollReset vt => s.scrollReset vt
  | handleSwitch scancode => (s.handleSwitch scancode).map Prod.snd

theorem Sound.run (sound : Sound s) (call : Call) : ∃ after, call.run s = some after ∧ Sound after := by
  have kept {result : Option Terminals} (spec : ∃ after, result = some after ∧ Kept s after) :
      ∃ after, result = some after ∧ Sound after := by
    obtain ⟨after, taken, kept⟩ := spec
    exact ⟨after, taken, kept.sound⟩
  cases call with
  | putchar vt c => exact kept (sound.putchar vt c)
  | write vt str => exact kept (sound.write vt str)
  | clear vt => exact kept (sound.clear vt)
  | setColor vt fg bg => exact ⟨_, rfl, (sound.setColor vt fg bg).sound⟩
  | vtermSwitch id =>
    obtain ⟨ret, after, result, last, _⟩ := sound.vtermSwitch id
    exact ⟨after, by rw [Call.run, result, Option.map_some], last⟩
  | scrollUp vt lines => exact kept (sound.scrollUp vt lines)
  | scrollDown vt lines => exact kept (sound.scrollDown vt lines)
  | scrollReset vt => exact kept (sound.scrollReset vt)
  | handleSwitch scancode =>
    obtain ⟨handled, after, result, switched⟩ := sound.handleSwitch scancode
    exact ⟨after, by rw [Call.run, result, Option.map_some], switched.sound⟩

theorem Sound.runAll (sound : Sound s) (calls : List Call) :
    ∃ after, calls.foldlM Call.run s = some after ∧ Sound after := by
  induction calls generalizing s with
  | nil => exact ⟨s, rfl, sound⟩
  | cons call rest ih =>
    obtain ⟨middle, first, between⟩ := sound.run call
    obtain ⟨after, later, last⟩ := ih between
    refine ⟨after, ?_, last⟩
    rw [List.foldlM_cons, first]
    exact later

theorem init_sound (s : Terminals) : ∃ after, s.init = some after ∧ Sound after ∧
    after.altPressed = s.altPressed ∧ after.active = 0 := by
  have first : (0 : Word) < 200 ∧ (0 : Word) < 80 := by decide
  rw [init, Cells.blankAll_eq, Option.bind_eq_bind, Option.bind_some]
  refine refresh_sound ?_ ?_
  · exact fun _ => .of_zero first.1 first.2 (by simp) rfl
  · simp

/-- Every run from `vterm_init` on returns, so that no cell outside a buffer is
read or written, and in every state it gets to the counters, the marks, the
part of the buffer that a refresh copies and the cursor it sets are in range. -/
theorem vterm_state_kept (s : Terminals) (calls : List Call) :
    ∃ after, (s.init.bind fun first => calls.foldlM Call.run first) = some after ∧
      (∀ id, (after.terminals id).cursorRow < 200 ∧ (after.terminals id).cursorCol < 80 ∧
        (after.terminals id).totalLines ≤ 200 ∧
        (after.terminals id).scrollOffset.toNat ≤ max 0 ((after.terminals id).cursorRow.toNat + 1 - 25)) ∧
      (∀ id, (after.terminals id).active = true ↔ id = after.active) ∧
      (∃ refreshed, after.refresh = some refreshed) ∧ after.vtermGetActive.viewStart.toNat + 2000 ≤ 16000 ∧
      (after.vtermGetActive.scrollOffset = 0 → after.vtermGetActive.cursorPos.toNat < 2000) ∧
      (after.cursor = 0xFFFF ∨ after.cursor.toNat < 2000) := by
  obtain ⟨first, started, sound, _⟩ := init_sound s
  obtain ⟨after, ran, last⟩ := sound.runAll calls
  refine ⟨after, by rw [started, Option.bind_some, ran], ?_, last.active, ⟨_, refresh_eq (last.sane _)⟩,
    Vterm.viewStart_inside (last.sane _), Vterm.cursorPos_shown (last.sane _), last.cursor⟩
  intro id
  have sane := last.sane id
  exact ⟨sane.row, sane.col, sane.lines, Nat.le_trans sane.offset (Nat.le_max_right _ _)⟩

end Terminals

end MexOS.Ui
