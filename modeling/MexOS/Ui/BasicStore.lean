import MexOS.Machine.SortedMap
import MexOS.Ui.Basic

/-! The program store of the interpreter: what `basic_add_line` makes of the
stored lines, and when this is a map sorted by line numbers. -/

namespace MexOS.Ui

open MexOS.Machine

namespace Basic

/-- The stored lines with their numbers. -/
def listing (basic : Basic) : List (Nat × List Byte) :=
  (List.range basic.lineCount).map fun i => ((basic.lineNumber i).toNat, basic.program i)

@[simp] theorem length_listing (basic : Basic) : basic.listing.length = basic.lineCount := by simp [listing]

theorem getElem_listing (basic : Basic) {i : Nat} (inside : i < basic.listing.length) :
    basic.listing[i] = ((basic.lineNumber i).toNat, basic.program i) := by
  simp [listing]

section Rows

variable {basic : Basic} {i j : Nat}

theorem rowOffset_eq (i : Nat) : rowOffset i = 128 * i := rfl

theorem numberOffset_eq (i : Nat) : numberOffset i = 12800 + 4 * i := rfl

theorem program_congr {other : Basic} (same : Bytes.Same basic.lines other.lines (128 * j) (128 * j + 128)) :
    other.program j = basic.program j :=
  Bytes.text_congr same

theorem lineNumber_congr {other : Basic} (same : Bytes.Same basic.lines other.lines (12800 + 4 * j) (12800 + 4 * j + 4)) :
    other.lineNumber j = basic.lineNumber j :=
  same.word (Nat.le_refl _) (Nat.le_refl _)

theorem program_clean (basic : Basic) (i : Nat) : 0 ∉ basic.program i := Bytes.text_clean _ _ _

/-- The copy of a line, with its zeros, takes 129 bytes. -/
theorem shiftLine_lines (inside : i < 99) (short : (basic.program i).length < 128) :
    (basic.shiftLine i).lines = (basic.lines.setWord (numberOffset (i + 1)) (basic.lineNumber i)).copy (rowOffset (i + 1))
      (fun place => (basic.program i).getD place 0) 0 129 := by
  have content {place : Nat} (inside : place < (basic.program i).length) :
      (basic.program i)[place] = basic.lines (rowOffset i + place) :=
    Bytes.text_getElem inside
  have row (place : Nat) (bound : place < 128) :
      basic.lines.setWord (numberOffset (i + 1)) (basic.lineNumber i) (rowOffset i + place) =
        basic.lines (rowOffset i + place) := by
    apply Bytes.setWord_outside
    rw [rowOffset_eq, numberOffset_eq]
    omega
  have fits : (basic.program i).length < basicMaxLineLen := short
  rw [shiftLine]
  dsimp only
  rw [Lib.strncpy_short ?_ ?_ fits]
  · congr 1
    funext place
    split
    · next before =>
      rw [row place (before.trans short), List.getD_eq_getElem _ _ before]
      exact (content before).symm
    · next behind => rw [List.getD_eq_default _ _ (not_lt.mp behind)]
  · intro place before
    rw [row place (before.trans short), ← content before]
    exact fun zero => basic.program_clean i (zero ▸ List.getElem_mem before)
  · rw [row _ short]
    exact Bytes.text_short short

theorem program_shiftLine (inside : i < 99) (short : (basic.program i).length < 128) (bound : j < 100) :
    (basic.shiftLine i).program j =
      if j = i + 1 then basic.program i else if j = i + 2 then [] else basic.program j := by
  have lines := shiftLine_lines inside short
  split
  · next same =>
    rw [same]
    apply Bytes.text_eq (basic.program_clean i) short
    · intro place before
      rw [lines, Bytes.copy_inside (Nat.le_add_right _ _) (by omega), Nat.zero_add, Nat.add_sub_cancel_left,
        List.getD_eq_getElem _ _ before]
    · rw [lines, Bytes.copy_inside (Nat.le_add_right _ _) (by omega), Nat.zero_add, Nat.add_sub_cancel_left,
        List.getD_eq_default _ _ (Nat.le_refl _)]
  · split
    · next same =>
      rw [same, program]
      refine Bytes.text_nil (by decide) ?_
      rw [lines, Bytes.copy_inside (by rw [rowOffset_eq, rowOffset_eq]; omega) (by rw [rowOffset_eq, rowOffset_eq]; omega)]
      apply List.getD_eq_default
      rw [rowOffset_eq, rowOffset_eq]
      omega
    · apply program_congr
      intro place lower upper
      rw [lines, Bytes.copy_outside (by rw [rowOffset_eq]; omega), Bytes.setWord_outside (by rw [numberOffset_eq]; omega)]

theorem lineNumber_setWord (basic : Basic) (i j : Nat) (value : Word) :
    Basic.lineNumber { basic with lines := basic.lines.setWord (numberOffset i) value } j =
      if j = i then value else basic.lineNumber j := by
  split
  · next same =>
    rw [same, lineNumber]
    exact Bytes.word_setWord _ _ _
  · refine lineNumber_congr (Bytes.setWord_same ?_)
    rw [numberOffset_eq]
    omega

/-- The lowest byte of the first number lies behind the last row. -/
theorem lineNumber_shiftLine (inside : i < 99) (short : (basic.program i).length < 128) (bound : j < 100) :
    ((basic.shiftLine i).lineNumber j).toNat =
      if j = i + 1 then (basic.lineNumber i).toNat
      else if i = 98 ∧ j = 0 then (basic.lineNumber j).toNat - (basic.lineNumber j).toNat % 256
      else (basic.lineNumber j).toNat := by
  have lines := shiftLine_lines inside short
  have numbered := lineNumber_setWord basic (i + 1) j (basic.lineNumber i)
  by_cases last : i = 98 ∧ j = 0
  · obtain ⟨rfl, rfl⟩ := last
    rw [if_neg (by omega)] at numbered
    rw [if_neg (by omega), if_pos ⟨rfl, rfl⟩, ← numbered, lineNumber, lineNumber, Bytes.toNat_word, Bytes.toNat_word]
    have kept {place : Nat} (behind : 12800 < place) : (basic.shiftLine 98).lines place =
        basic.lines.setWord (numberOffset (98 + 1)) (basic.lineNumber 98) place := by
      rw [lines, Bytes.copy_outside (by rw [rowOffset_eq]; omega)]
    have first : (basic.shiftLine 98).lines (numberOffset 0) = 0 := by
      rw [lines, Bytes.copy_inside (by decide) (by decide)]
      exact List.getD_eq_default _ _ (by rw [rowOffset_eq, numberOffset_eq]; omega)
    rw [first, kept (by decide), kept (by decide), kept (by decide)]
    have low := (basic.lines.setWord (numberOffset (98 + 1)) (basic.lineNumber 98) (numberOffset 0)).isLt
    have zero : (0 : Byte).toNat = 0 := rfl
    dsimp only
    omega
  · have same : (basic.shiftLine i).lineNumber j = if j = i + 1 then basic.lineNumber i else basic.lineNumber j := by
      rw [← numbered]
      apply lineNumber_congr
      intro place lower upper
      rw [lines, Bytes.copy_outside (by rw [rowOffset_eq]; omega)]
    rw [same, if_neg last]
    split <;> rfl

theorem shiftLines_stop (basic : Basic) (place : Nat) : shiftLines place place basic = basic := by
  cases place with
  | zero => rfl
  | succ place => rw [shiftLines, if_neg (Nat.lt_irrefl _)]

theorem shiftLines_step {place : Nat} (before : place < i + 1) :
    shiftLines place (i + 1) basic = shiftLines place i (basic.shiftLine i) := by
  rw [shiftLines, if_pos before]

/-- Behind the new place one line survives the shift, the others lose their
text to the copy of the line before. -/
theorem program_shiftLines {place : Nat} (inside : i < 100) (before : place < i)
    (short : ∀ j < i, (basic.program j).length < 128) (bound : j < 100) :
    (shiftLines place i basic).program j =
      if j ≤ place then basic.program j
      else if j = place + 1 then basic.program place
      else if j ≤ i + 1 then []
      else basic.program j := by
  induction i generalizing basic with
  | zero => omega
  | succ i ih =>
    have moved {j : Nat} (bound : j < 100) := @program_shiftLine basic i j (by omega) (short i (Nat.lt_succ_self i)) bound
    rw [shiftLines_step before]
    by_cases last : place = i
    · rw [last, shiftLines_stop, moved bound]
      grind
    · have kept (j : Nat) (below : j < i) : (basic.shiftLine i).program j = basic.program j := by
        rw [moved (by omega), if_neg (by omega), if_neg (by omega)]
      rw [ih (by omega) (by omega) fun j below => kept j below ▸ short j (by omega), moved bound, kept place (by omega)]
      grind

/-- What the shift of the lines before line `i` makes of a number. -/
def numberLeft (basic : Basic) (i j : Nat) : Nat :=
  if i = 99 ∧ j = 0 then (basic.lineNumber j).toNat - (basic.lineNumber j).toNat % 256 else (basic.lineNumber j).toNat

theorem lineNumber_shiftLines {place : Nat} (inside : i < 100) (before : place < i)
    (short : ∀ j < i, (basic.program j).length < 128) (bound : j < 100) :
    ((shiftLines place i basic).lineNumber j).toNat =
      if place < j ∧ j ≤ i then basic.numberLeft i (j - 1) else basic.numberLeft i j := by
  induction i generalizing basic with
  | zero => omega
  | succ i ih =>
    have moved {j : Nat} (bound : j < 100) := @lineNumber_shiftLine basic i j (by omega) (short i (Nat.lt_succ_self i)) bound
    rw [shiftLines_step before]
    by_cases last : place = i
    · rw [last, shiftLines_stop, moved bound]
      grind [numberLeft]
    · have kept (j : Nat) (below : j < i) : (basic.shiftLine i).program j = basic.program j := by
        rw [program_shiftLine (by omega) (short i (Nat.lt_succ_self i)) (by omega), if_neg (by omega), if_neg (by omega)]
      have others : ¬ i = 99 := by omega
      rw [ih (by omega) (by omega) fun j below => kept j below ▸ short j (by omega)]
      simp only [numberLeft, others, false_and, ↓reduceIte, moved bound, moved (by omega : j - 1 < 100)]
      grind

end Rows

/-- `line_numbers[0]` with a zero in its lowest byte. -/
def firstCleared : List (Nat × List Byte) → List (Nat × List Byte)
  | [] => []
  | line :: rest => (line.1 - line.1 % 256, line.2) :: rest

/-- The lines before they are shifted apart at `place`. -/
def keptLines (listing : List (Nat × List Byte)) (place : Nat) : List (Nat × List Byte) :=
  if listing.length = 99 ∧ place < 99 then firstCleared listing else listing

/-- All texts but the first one are lost. -/
def emptied : List (Nat × List Byte) → List (Nat × List Byte)
  | [] => []
  | line :: rest => line :: rest.map fun line => (line.1, [])

/-- The first line whose number is not smaller. -/
def placeOf (listing : List (Nat × List Byte)) (number : Nat) : Nat := listing.findIdx fun line => number ≤ line.1

/-- What `basic_add_line` makes of the stored lines. -/
def entered (listing : List (Nat × List Byte)) (number : Nat) (text : List Byte) : List (Nat × List Byte) :=
  let place := placeOf listing number
  if 100 ≤ listing.length then listing
  else if listing[place]?.map Prod.fst = some number then listing.set place (number, text)
  else
    let kept := keptLines listing place
    kept.take place ++ (number, text) :: emptied (kept.drop place)

variable {basic : Basic} {lineNum : Word}

theorem findLine_eq (turns i : Nat) (ends : i + turns = basic.lineCount)
    (before : ∀ j < i, basic.lineNumber j < lineNum) :
    basic.findLine lineNum turns i = (placeOf basic.listing lineNum.toNat,
      decide (basic.listing[placeOf basic.listing lineNum.toNat]?.map Prod.fst = some lineNum.toNat)) := by
  have smaller (j : Nat) (below : j < i) (inside : j < basic.listing.length) :
      decide (lineNum.toNat ≤ basic.listing[j].1) = false := by
    rw [getElem_listing, decide_eq_false_iff_not, not_le]
    exact before j below
  induction turns generalizing i with
  | zero =>
    have place : placeOf basic.listing lineNum.toNat = i := by
      rw [placeOf, List.findIdx_eq_length_of_false, length_listing, ← ends, Nat.add_zero]
      intro line member
      obtain ⟨j, inside, rfl⟩ := List.getElem_of_mem member
      rw [length_listing] at inside
      exact smaller j (by omega) _
    have none : basic.listing[i]? = none := List.getElem?_eq_none (by rw [length_listing]; omega)
    rw [findLine, place, none]
    rfl
  | succ turns ih =>
    have inside : i < basic.listing.length := by
      rw [length_listing]
      omega
    have here : basic.listing[i]? = some ((basic.lineNumber i).toNat, basic.program i) := by
      rw [List.getElem?_eq_getElem inside, getElem_listing]
    have place (reached : lineNum.toNat ≤ (basic.lineNumber i).toNat) :
        placeOf basic.listing lineNum.toNat = i := by
      rw [placeOf, List.findIdx_eq inside]
      refine ⟨?_, fun j below => smaller j below _⟩
      rw [getElem_listing]
      exact decide_eq_true reached
    rw [findLine]
    split
    · next same =>
      rw [place (by rw [same]), here, same]
      simp
    · next different =>
      split
      · next above =>
        have apart : ¬ (basic.lineNumber i).toNat = lineNum.toNat := fun same => different (BitVec.eq_of_toNat_eq same)
        rw [place (Nat.le_of_lt above), here]
        simp [apart]
      · next below =>
        have less : basic.lineNumber i < lineNum := by
          rw [BitVec.lt_def]
          rw [gt_iff_lt, BitVec.lt_def] at below
          have apart : (basic.lineNumber i).toNat ≠ lineNum.toNat := fun same => different (BitVec.eq_of_toNat_eq same)
          omega
        have later : ∀ j < i + 1, basic.lineNumber j < lineNum := by
          intro j bound
          rcases Nat.lt_succ_iff_lt_or_eq.mp bound with earlier | rfl
          · exact before j earlier
          · exact less
        refine ih (i + 1) (by omega) later fun j bound inside => ?_
        rw [getElem_listing, decide_eq_false_iff_not, not_le]
        exact later j bound

theorem program_setProgram (basic : Basic) (i j : Nat) (line : CString) :
    (basic.setProgram i line).program j = if j = i then line.bytes.take 127 else basic.program j := by
  split
  · next same =>
    rw [same]
    exact Lib.text_setText (by decide)
  · refine program_congr fun place lower upper => ?_
    change Lib.setText _ _ _ _ place = _
    rw [Lib.setText_eq (by decide)]
    refine Bytes.copy_outside ?_
    rw [rowOffset_eq, basicMaxLineLen]
    omega

theorem lineNumber_setProgram {i : Nat} (inside : i < 100) (basic : Basic) (j : Nat) (line : CString) :
    (basic.setProgram i line).lineNumber j = basic.lineNumber j := by
  refine lineNumber_congr fun place lower _ => ?_
  change Lib.setText _ _ _ _ place = _
  rw [Lib.setText_eq (by decide)]
  refine Bytes.copy_outside ?_
  rw [rowOffset_eq, basicMaxLineLen]
  omega

theorem firstCleared_getElem? (listing : List (Nat × List Byte)) (j : Nat) :
    (firstCleared listing)[j]? =
      listing[j]?.map fun line => (if j = 0 then line.1 - line.1 % 256 else line.1, line.2) := by
  cases listing with
  | nil => rfl
  | cons line rest =>
    cases j with
    | zero => rfl
    | succ j => simp [firstCleared]

theorem emptied_getElem? (listing : List (Nat × List Byte)) (j : Nat) :
    (emptied listing)[j]? = listing[j]?.map fun line => (line.1, if j = 0 then line.2 else []) := by
  cases listing with
  | nil => rfl
  | cons line rest =>
    cases j with
    | zero => rfl
    | succ j => simp [emptied]

theorem getElem?_listing (basic : Basic) (j : Nat) : basic.listing[j]? =
    if j < basic.lineCount then some ((basic.lineNumber j).toNat, basic.program j) else none := by
  by_cases inside : j < basic.lineCount
  · rw [if_pos inside, List.getElem?_eq_getElem (by rwa [length_listing]), getElem_listing]
  · rw [if_neg inside, List.getElem?_eq_none (by rw [length_listing]; omega)]

theorem length_keptLines (listing : List (Nat × List Byte)) (place : Nat) :
    (keptLines listing place).length = listing.length := by
  rw [keptLines]
  split
  · cases listing <;> rfl
  · rfl

/-- Their numbers. -/
def keptNumber (basic : Basic) (place j : Nat) : Nat :=
  if place < basic.lineCount then basic.numberLeft basic.lineCount j else (basic.lineNumber j).toNat

theorem getElem?_keptLines (basic : Basic) (place j : Nat) : (keptLines basic.listing place)[j]? =
    if j < basic.lineCount then some (basic.keptNumber place j, basic.program j) else none := by
  rw [keptLines]
  split
  · next last =>
    rw [length_listing] at last
    rw [firstCleared_getElem?, getElem?_listing]
    by_cases inside : j < basic.lineCount
    · have early : place < basic.lineCount := by omega
      rw [if_pos inside, if_pos inside, Option.map_some, keptNumber, if_pos early, numberLeft]
      simp only [last.1, true_and]
    · rw [if_neg inside, if_neg inside, Option.map_none]
  · next early =>
    rw [length_listing] at early
    rw [getElem?_listing]
    by_cases inside : j < basic.lineCount
    · rw [if_pos inside, if_pos inside, keptNumber]
      split
      · rw [numberLeft, if_neg (by omega)]
      · rfl
    · rw [if_neg inside, if_neg inside]

section Insertion

variable {place : Nat} (room : basic.lineCount < 100) (inside : place ≤ basic.lineCount)
  (short : ∀ j < basic.lineCount, (basic.program j).length < 128)

include room inside short

theorem lineNumber_shifted {j : Nat} (bound : j ≤ basic.lineCount) :
    ((shiftLines place basic.lineCount basic).lineNumber j).toNat =
      if place < j then basic.keptNumber place (j - 1) else basic.keptNumber place j := by
  rcases Nat.lt_or_eq_of_le inside with before | same
  · rw [lineNumber_shiftLines room before short (by omega)]
    simp only [keptNumber, if_pos before, bound, and_true]
  · rw [if_neg (by omega), same, shiftLines_stop, keptNumber, if_neg (Nat.lt_irrefl _)]

theorem program_shifted {j : Nat} (bound : j ≤ basic.lineCount) :
    (shiftLines place basic.lineCount basic).program j =
      if j ≤ place then basic.program j else if j = place + 1 then basic.program place else [] := by
  rcases Nat.lt_or_eq_of_le inside with before | same
  · rw [program_shiftLines room before short (by omega)]
    grind
  · rw [same, shiftLines_stop, if_pos bound]

theorem listing_inserted (line : CString) :
    (let shifted := shiftLines place basic.lineCount basic
      let numbered := { shifted with lines := shifted.lines.setWord (numberOffset place) lineNum }
      listing { numbered.setProgram place line with lineCount := basic.lineCount + 1 }) =
      (keptLines basic.listing place).take place ++
        (lineNum.toNat, line.bytes.take 127) :: emptied ((keptLines basic.listing place).drop place) := by
  dsimp only
  generalize shifted : shiftLines place basic.lineCount basic = after
  generalize numbered : ({ after with lines := after.lines.setWord (numberOffset place) lineNum } : Basic) = named
  have number {j : Nat} (bound : j ≤ basic.lineCount) : ((named.setProgram place line).lineNumber j).toNat =
      if j = place then lineNum.toNat
      else if place < j then basic.keptNumber place (j - 1) else basic.keptNumber place j := by
    rw [lineNumber_setProgram (by omega), ← numbered, lineNumber_setWord]
    split
    · rfl
    · rw [← shifted, lineNumber_shifted room inside short bound]
  have program {j : Nat} (bound : j ≤ basic.lineCount) : (named.setProgram place line).program j =
      if j = place then line.bytes.take 127
      else if j ≤ place then basic.program j else if j = place + 1 then basic.program place else [] := by
    rw [program_setProgram]
    split
    · rfl
    · rw [← program_shifted room inside short bound, shifted, ← numbered]
      refine program_congr (Bytes.setWord_same ?_)
      rw [numberOffset_eq]
      omega
  have size : ((keptLines basic.listing place).take place).length = place := by
    rw [List.length_take, length_keptLines, length_listing, Nat.min_eq_left inside]
  apply List.ext_getElem?
  intro j
  rw [getElem?_listing]
  change (if j < basic.lineCount + 1 then
    some (((named.setProgram place line).lineNumber j).toNat, (named.setProgram place line).program j) else none) = _
  rcases Nat.lt_trichotomy j place with before | rfl | behind
  · have old := number (before.le.trans inside)
    have text := program (before.le.trans inside)
    rw [if_neg before.ne, if_neg before.not_gt] at old
    rw [if_neg before.ne, if_pos before.le] at text
    rw [if_pos (by omega), old, text, List.getElem?_append_left (size.symm ▸ before), List.getElem?_take_of_lt before,
      getElem?_keptLines, if_pos (by omega)]
  · have fresh := number inside
    have text := program inside
    rw [if_pos rfl] at fresh text
    rw [if_pos (by omega), fresh, text, List.getElem?_append_right size.le, size, Nat.sub_self, List.getElem?_cons_zero]
  · obtain ⟨k, rfl⟩ := Nat.exists_eq_add_of_lt behind
    have index : place + k + 1 - place = k + 1 := by omega
    rw [List.getElem?_append_right (size.le.trans behind.le), size, index, List.getElem?_cons_succ, emptied_getElem?,
      List.getElem?_drop, getElem?_keptLines]
    by_cases more : place + k < basic.lineCount
    · have old := number more
      have text := program more
      rw [if_neg behind.ne', if_pos behind, Nat.succ_sub_one] at old
      rw [if_neg behind.ne', if_neg behind.not_ge] at text
      rw [if_pos (by omega), if_pos more, old, text, Option.map_some]
      by_cases next : k = 0
      · rw [if_pos (by omega), if_pos next, next, Nat.add_zero]
      · rw [if_neg (by omega), if_neg next]
    · rw [if_neg (by omega), if_neg more, Option.map_none]

end Insertion

theorem listing_replaced {place : Nat} (room : basic.lineCount < 100)
    (present : basic.listing[place]?.map Prod.fst = some lineNum.toNat) (line : CString) :
    (basic.setProgram place line).listing = basic.listing.set place (lineNum.toNat, line.bytes.take 127) := by
  obtain ⟨old, here, number⟩ := Option.map_eq_some_iff.mp present
  have inside : place < basic.lineCount := by
    by_contra outside
    rw [getElem?_listing, if_neg outside] at here
    cases here
  rw [getElem?_listing, if_pos inside, Option.some.injEq] at here
  apply List.ext_getElem?
  intro j
  rw [getElem?_listing, lineNumber_setProgram (by omega), program_setProgram, List.getElem?_set, length_listing,
    getElem?_listing]
  change (if j < basic.lineCount then _ else _) = _
  by_cases same : place = j
  · subst same
    rw [if_pos inside, if_pos rfl, if_pos rfl, if_pos inside, ← number, ← here]
  · rw [if_neg same, if_neg (Ne.symm same)]

/-- The texts leave room for their terminators. -/
def Terminated (listing : List (Nat × List Byte)) : Prop := ∀ line ∈ listing, line.2.length < 128

theorem emptied_terminated {listing : List (Nat × List Byte)} (terminated : Terminated listing) :
    Terminated (emptied listing) := by
  cases listing with
  | nil => exact terminated
  | cons line rest =>
    obtain ⟨first, _⟩ := List.forall_mem_cons.mp terminated
    refine List.forall_mem_cons.mpr ⟨first, fun entry member => ?_⟩
    obtain ⟨old, _, rfl⟩ := List.mem_map.mp member
    exact (by decide : 0 < 128)

theorem keptLines_terminated {listing : List (Nat × List Byte)} (terminated : Terminated listing) (place : Nat) :
    Terminated (keptLines listing place) := by
  rw [keptLines]
  split
  · cases listing with
    | nil => exact terminated
    | cons line rest => exact List.forall_mem_cons.mpr (List.forall_mem_cons.mp terminated)
  · exact terminated

theorem entered_terminated {listing : List (Nat × List Byte)} (terminated : Terminated listing) (number : Nat)
    {text : List Byte} (short : text.length < 128) : Terminated (entered listing number text) := by
  rw [entered]
  split
  · exact terminated
  · split
    · intro line member
      rcases List.mem_or_eq_of_mem_set member with old | rfl
      · exact terminated line old
      · exact short
    · have kept := keptLines_terminated terminated (placeOf listing number)
      intro line member
      rcases List.mem_append.mp member with front | rest
      · exact kept line (List.mem_of_mem_take front)
      · rcases List.mem_cons.mp rest with rfl | back
        · exact short
        · exact emptied_terminated (fun entry later => kept entry (List.mem_of_mem_drop later)) line back

theorem addLine_listing (terminated : Terminated basic.listing) (lineNum : Word) (line : CString) :
    (basic.addLine lineNum line).2.listing = entered basic.listing lineNum.toNat (line.bytes.take 127) := by
  have short (j : Nat) (inside : j < basic.lineCount) : (basic.program j).length < 128 := by
    have bound : j < basic.listing.length := by rwa [length_listing]
    have member := List.getElem_mem bound
    rw [getElem_listing] at member
    exact terminated _ member
  rw [addLine, entered, length_listing, basicMaxProgramLines]
  by_cases full : 100 ≤ basic.lineCount
  · rw [if_pos full, if_pos full]
  · have room : basic.lineCount < 100 := not_le.mp full
    have inside : placeOf basic.listing lineNum.toNat ≤ basic.lineCount := by
      rw [← length_listing]
      exact List.findIdx_le_length
    rw [if_neg full, if_neg full,
      findLine_eq _ 0 (Nat.zero_add _) (fun _ impossible => absurd impossible (Nat.not_lt_zero _))]
    by_cases present : basic.listing[placeOf basic.listing lineNum.toNat]?.map Prod.fst = some lineNum.toNat
    · rw [decide_eq_true present, if_pos present]
      exact listing_replaced room present line
    · rw [decide_eq_false present, if_neg present]
      exact @listing_inserted basic lineNum _ room inside short line

section Map

variable {listing : List (Nat × List Byte)} {number : Nat} {text : List Byte}

theorem mem_take_placeOf {line : Nat × List Byte} (member : line ∈ listing.take (placeOf listing number)) :
    line.1 < number := by
  obtain ⟨j, inside, rfl⟩ := List.getElem_of_mem member
  rw [List.length_take] at inside
  have skipped := List.not_of_lt_findIdx (show j < listing.findIdx fun line => number ≤ line.1 by
    rw [← placeOf]
    omega)
  rw [List.getElem_take]
  simpa using skipped

theorem le_placeOf (bound : placeOf listing number < listing.length) : number ≤ listing[placeOf listing number].1 := by
  have reached := @List.findIdx_getElem _ (fun line : Nat × List Byte => decide (number ≤ line.1)) listing bound
  exact of_decide_eq_true reached

theorem mem_drop_placeOf (sorted : SortedMap.Sorted listing) {line : Nat × List Byte}
    (member : line ∈ listing.drop (placeOf listing number)) : number ≤ line.1 := by
  obtain ⟨j, inside, rfl⟩ := List.getElem_of_mem member
  rw [List.length_drop] at inside
  have bound : placeOf listing number < listing.length := by omega
  have first := le_placeOf bound
  rw [List.getElem_drop]
  rcases Nat.eq_zero_or_pos j with rfl | later
  · exact first
  · exact first.trans (List.pairwise_iff_getElem.mp sorted _ _ _ _ (by omega)).le

theorem present_iff (sorted : SortedMap.Sorted listing) :
    listing[placeOf listing number]?.map Prod.fst = some number ↔ number ∈ listing.map Prod.fst := by
  constructor
  · intro present
    obtain ⟨line, here, same⟩ := Option.map_eq_some_iff.mp present
    exact List.mem_map.mpr ⟨line, List.mem_of_getElem? here, same⟩
  · intro known
    obtain ⟨line, member, same⟩ := List.mem_map.mp known
    rw [← List.take_append_drop (placeOf listing number) listing, List.mem_append] at member
    rcases member with before | behind
    · exact absurd (mem_take_placeOf before) (not_lt.mpr same.ge)
    · obtain ⟨j, inside, rfl⟩ := List.getElem_of_mem behind
      rw [List.length_drop] at inside
      have bound : placeOf listing number < listing.length := by omega
      have first := le_placeOf bound
      rw [List.getElem_drop] at same
      rcases Nat.eq_zero_or_pos j with rfl | later
      · rw [List.getElem?_eq_getElem bound, Option.map_some]
        exact congrArg some same
      · have above := List.pairwise_iff_getElem.mp sorted (placeOf listing number) (placeOf listing number + j) bound
          (by omega) (by omega)
        omega

theorem firstCleared_eq_iff : firstCleared listing = listing ↔ ∀ line ∈ listing.head?, line.1 % 256 = 0 := by
  cases listing with
  | nil => simp [firstCleared]
  | cons line rest =>
    have low : line.1 - line.1 % 256 = line.1 ↔ line.1 % 256 = 0 := by omega
    simp [firstCleared, Prod.ext_iff, low]

theorem emptied_eq_iff : emptied listing = listing ↔ ∀ line ∈ listing.tail, line.2 = [] := by
  cases listing with
  | nil => simp [emptied]
  | cons line rest =>
    rw [emptied, List.tail_cons, List.cons.injEq, and_iff_right rfl]
    constructor
    · intro same entry member
      rw [← same] at member
      obtain ⟨old, _, rfl⟩ := List.mem_map.mp member
      rfl
    · intro empty
      refine (List.map_congr_left fun entry member => ?_).trans (List.map_id rest)
      exact Prod.ext rfl (empty entry member).symm

theorem map_fst_emptied (listing : List (Nat × List Byte)) : (emptied listing).map Prod.fst = listing.map Prod.fst := by
  cases listing <;> simp [emptied]

/-- Only the first number can change. -/
theorem keptLines_eq_of_numbers {place : Nat} (numbers : (keptLines listing place).map Prod.fst = listing.map Prod.fst) :
    keptLines listing place = listing := by
  rw [keptLines] at numbers ⊢
  split
  · next last =>
    rw [if_pos last] at numbers
    cases listing with
    | nil => rfl
    | cons line rest =>
      rw [firstCleared, List.map_cons, List.map_cons, List.cons.injEq] at numbers
      have same : line.1 - line.1 % 256 = line.1 := numbers.1
      rw [firstCleared, same]
  · rfl

/-- The number is stored already; or of the lines with greater numbers only the
first has a text, and the last row stays free, no line is shifted, or the first
number has a zero in its lowest byte. -/
def Fits (listing : List (Nat × List Byte)) (number : Nat) : Prop :=
  number ∈ listing.map Prod.fst ∨
    ((∀ line ∈ (listing.filter fun line => number < line.1).tail, line.2 = []) ∧
      (listing.length < 99 ∨ (∀ line ∈ listing, line.1 < number) ∨ ∀ line ∈ listing.head?, line.1 % 256 = 0))

instance (listing : List (Nat × List Byte)) (number : Nat) : Decidable (Fits listing number) :=
  inferInstanceAs (Decidable (_ ∨ ((∀ _ ∈ _, _) ∧ (_ ∨ (∀ _ ∈ _, _) ∨ ∀ _ ∈ _, _))))

theorem filter_above (sorted : SortedMap.Sorted listing) (absent : number ∉ listing.map Prod.fst) :
    (listing.filter fun line => number < line.1) = listing.drop (placeOf listing number) := by
  conv_lhs => rw [← List.take_append_drop (placeOf listing number) listing]
  rw [List.filter_append, List.filter_eq_nil_iff.mpr, List.nil_append, List.filter_eq_self]
  · intro line member
    have above := mem_drop_placeOf sorted member
    have apart : line.1 ≠ number := fun same => absent (List.mem_map.mpr ⟨line, List.mem_of_mem_drop member, same⟩)
    exact decide_eq_true (by omega)
  · intro line member
    have below := mem_take_placeOf member
    rw [decide_eq_true_eq]
    omega

theorem placeOf_eq_length : placeOf listing number = listing.length ↔ ∀ line ∈ listing, line.1 < number := by
  rw [placeOf, List.findIdx_eq_length]
  simp

theorem keptLines_eq_iff (room : listing.length < 100) : keptLines listing (placeOf listing number) = listing ↔
    listing.length < 99 ∨ (∀ line ∈ listing, line.1 < number) ∨ ∀ line ∈ listing.head?, line.1 % 256 = 0 := by
  have place := @List.findIdx_le_length _ (fun line : Nat × List Byte => decide (number ≤ line.1)) listing
  rw [← placeOf] at place
  rw [keptLines, ← placeOf_eq_length]
  split
  · next last =>
    rw [firstCleared_eq_iff]
    constructor
    · exact fun mild => .inr (.inr mild)
    · rintro (few | behind | mild)
      · omega
      · omega
      · exact mild
  · next early => exact iff_of_true rfl (by omega)

/-- The condition is exact. -/
theorem entered_eq_iff (sorted : SortedMap.Sorted listing) (room : listing.length < 100) :
    entered listing number text = SortedMap.upsert listing number text ↔ Fits listing number := by
  have before (line : Nat × List Byte) (member : line ∈ listing.take (placeOf listing number)) := mem_take_placeOf member
  rw [entered, if_neg (not_le.mpr room)]
  by_cases known : number ∈ listing.map Prod.fst
  · have present := (present_iff sorted).mpr known
    obtain ⟨line, here, same⟩ := Option.map_eq_some_iff.mp present
    rw [if_pos present, SortedMap.upsert_of_present before here same]
    exact iff_of_true rfl (.inl known)
  · have behind : ∀ line ∈ (listing.drop (placeOf listing number)).head?, number < line.1 := by
      intro line first
      have member := List.mem_of_mem_head? first
      have apart : line.1 ≠ number := fun same => known (List.mem_map.mpr ⟨line, List.mem_of_mem_drop member, same⟩)
      have above := mem_drop_placeOf sorted member
      omega
    rw [if_neg (mt (present_iff sorted).mp known), SortedMap.upsert_of_gap before behind, Fits, or_iff_right known,
      filter_above sorted known, ← keptLines_eq_iff room, ← emptied_eq_iff]
    dsimp only
    generalize kept : keptLines listing (placeOf listing number) = lines
    constructor
    · intro same
      obtain ⟨front, back⟩ := List.append_inj same (by rw [List.length_take, List.length_take, ← kept, length_keptLines])
      have rest := (List.cons.inj back).2
      have numbers : lines.map Prod.fst = listing.map Prod.fst := by
        rw [← List.take_append_drop (placeOf listing number) lines, List.map_append, front,
          ← map_fst_emptied (lines.drop _), rest, ← List.map_append, List.take_append_drop]
      obtain rfl : lines = listing := kept ▸ keptLines_eq_of_numbers (kept.symm ▸ numbers)
      exact ⟨rest, rfl⟩
    · rintro ⟨empty, rfl⟩
      rw [empty]

end Map

/-- One call of `basic_add_line` after the other. -/
def addAll (basic : Basic) (calls : List (Word × CString)) : Basic :=
  calls.foldl (fun basic call => (basic.addLine call.1 call.2).2) basic

/-- What a sequence of calls makes of the stored lines. -/
def enterAll (listing : List (Nat × List Byte)) (calls : List (Word × CString)) : List (Nat × List Byte) :=
  calls.foldl (fun listing call => entered listing call.1.toNat (call.2.bytes.take 127)) listing

theorem addAll_listing (terminated : Terminated basic.listing) (calls : List (Word × CString)) :
    (basic.addAll calls).listing = enterAll basic.listing calls ∧ Terminated (basic.addAll calls).listing := by
  induction calls generalizing basic with
  | nil => exact ⟨rfl, terminated⟩
  | cons call rest ih =>
    have first := addLine_listing terminated call.1 call.2
    have short : (call.2.bytes.take 127).length < 128 := by
      rw [List.length_take]
      omega
    have later := ih (first ▸ entered_terminated terminated call.1.toNat short)
    rw [first] at later
    exact later

/-- The stored lines are sorted, have the numbers that were added, and for each
of them as much as fits of the text that was added last. -/
structure StoresMap (calls : List (Word × CString)) (basic : Basic) : Prop where
  increasing : SortedMap.Sorted basic.listing
  numbers : ∀ number, number ∈ basic.listing.map Prod.fst ↔ number ∈ calls.map fun call => call.1.toNat
  texts : ∀ line ∈ basic.listing, ∃ text,
    SortedMap.latest (calls.map fun call => (call.1.toNat, call.2)) line.1 = some text ∧ line.2 = text.bytes.take 127

/-- The lines that a call adds, as they are stored. -/
def asStored (call : Word × CString) : Nat × List Byte := (call.1.toNat, call.2.bytes.take 127)

theorem storesMap_iff (calls : List (Word × CString)) :
    StoresMap calls basic ↔ basic.listing = SortedMap.ofEntries (calls.map asStored) := by
  have values (number : Nat) : SortedMap.latest (calls.map asStored) number =
      (SortedMap.latest (calls.map fun call => (call.1.toNat, call.2)) number).map fun text => text.bytes.take 127 := by
    rw [← SortedMap.latest_map, List.map_map]
    rfl
  have numbers : (calls.map asStored).map Prod.fst = calls.map fun call => call.1.toNat := by
    rw [List.map_map]
    rfl
  rw [SortedMap.eq_ofEntries_iff, numbers]
  simp only [values, Option.map_eq_some_iff]
  constructor
  · rintro ⟨sorted, known, texts⟩
    refine ⟨sorted, known, fun line member => ?_⟩
    obtain ⟨text, last, same⟩ := texts line member
    exact ⟨text, last, same.symm⟩
  · rintro ⟨sorted, known, texts⟩
    refine ⟨sorted, known, fun line member => ?_⟩
    obtain ⟨text, last, same⟩ := texts line member
    exact ⟨text, last, same.symm⟩

theorem StoresMap.terminated {calls : List (Word × CString)} (stores : StoresMap calls basic) :
    Terminated basic.listing := by
  intro line member
  obtain ⟨text, _, same⟩ := stores.texts line member
  rw [same, List.length_take]
  omega

theorem storesMap_addLine_iff {calls : List (Word × CString)} (stores : StoresMap calls basic)
    (room : basic.lineCount < 100) (call : Word × CString) :
    StoresMap (calls ++ [call]) (basic.addLine call.1 call.2).2 ↔ Fits basic.listing call.1.toNat := by
  rw [storesMap_iff, addLine_listing stores.terminated, List.map_append, List.map_singleton, asStored,
    SortedMap.ofEntries_append, ← (storesMap_iff calls).mp stores]
  exact entered_eq_iff stores.increasing (by rwa [length_listing])

theorem addAll_append (basic : Basic) (calls : List (Word × CString)) (call : Word × CString) :
    basic.addAll (calls ++ [call]) = ((basic.addAll calls).addLine call.1 call.2).2 := by
  rw [addAll, List.foldl_append]
  rfl

/-- In every state of a run the store is the map, if and only if every line
fits where it is added. -/
theorem basic_store_sorted_map_iff {start basic : Basic} (began : start = basic.init ∨ start = basic.clearProgram)
    {calls : List (Word × CString)} (room : ∀ k < calls.length, (start.addAll (calls.take k)).lineCount < 100) :
    (∀ k ≤ calls.length, StoresMap (calls.take k) (start.addAll (calls.take k))) ↔
      ∀ k (inside : k < calls.length), Fits (start.addAll (calls.take k)).listing calls[k].1.toNat := by
  have step {k : Nat} (inside : k < calls.length) (stores : StoresMap (calls.take k) (start.addAll (calls.take k))) :
      StoresMap (calls.take (k + 1)) (start.addAll (calls.take (k + 1))) ↔
        Fits (start.addAll (calls.take k)).listing calls[k].1.toNat := by
    rw [List.take_succ_eq_append_getElem inside, addAll_append]
    exact storesMap_addLine_iff stores (room k inside) calls[k]
  constructor
  · intro stores k inside
    exact (step inside (stores k inside.le)).mp (stores (k + 1) inside)
  · intro fits k bound
    induction k with
    | zero =>
      have empty : start.listing = [] := by
        apply List.eq_nil_of_length_eq_zero
        rw [length_listing]
        rcases began with rfl | rfl
        · rfl
        · rfl
      exact (storesMap_iff _).mpr empty
    | succ k ih => exact (step bound (ih (by omega))).mpr (fits k bound)

def lineCalls (numbers : List Word) : List (Word × CString) := numbers.map fun number => (number, CString.ofBytes (ascii "LET A=1"))

theorem basic_store_sorted_map_ascending :
    StoresMap (lineCalls [10, 20, 30, 20]) (zero.init.addAll (lineCalls [10, 20, 30, 20])) := by
  have stored := (@basic_store_sorted_map_iff zero.init zero (.inl rfl) (lineCalls [10, 20, 30, 20]) (by decide +kernel)).mpr
    (by decide +kernel)
  exact stored 4 (by decide)

theorem basic_store_loses_text :
    (∀ k < 3, (zero.init.addAll ((lineCalls [30, 20, 10]).take k)).lineCount < 100) ∧
      ¬ StoresMap (lineCalls [30, 20, 10]) (zero.init.addAll (lineCalls [30, 20, 10])) := by
  refine ⟨by decide +kernel, fun stores => ?_⟩
  obtain ⟨text, last, same⟩ := stores.texts (30, []) (by decide +kernel)
  have wanted : (SortedMap.latest ((lineCalls [30, 20, 10]).map fun call => (call.1.toNat, call.2)) 30).map
      (fun text => text.bytes.take 127) ≠ some [] := by decide +kernel
  rw [last, Option.map_some, ← same] at wanted
  exact wanted rfl

end Basic

end MexOS.Ui
