import MexOS.Machine.Strings
import Mathlib.Logic.Function.Basic

/-! `format_log_message` of `lib/log.c`, with the two functions of
`lib/string.c` that it writes numbers with. A call that leaves one of its
buffers or its format stops there. -/

namespace MexOS.Lib

open MexOS.Machine

/-- A read behind the terminator of the format, or a write outside `buffer` or
outside `tmp`. -/
inductive LogFault
  | formatRead
  | bufferWrite
  | tmpWrite

/-- What an argument is to `va_arg`, as a number and as a string; `none` is
NULL. -/
structure VaArg where
  number : Word
  string : Option CString

/-- `sizeof(tmp)` -/
def tmpSize : Nat := 16

/-- `*ptr = byte` -/
def put (size : Nat) (buffer : Bytes) (ptr : Nat) (byte : Byte) : Except LogFault Bytes :=
  if ptr < size then .ok (Function.update buffer ptr byte) else .error .bufferWrite

/-- The loops that copy a string while `ptr < end`. -/
def putText (size : Nat) : List Byte → Bytes → Nat → Except LogFault (Bytes × Nat)
  | [], buffer, ptr => .ok (buffer, ptr)
  | byte :: rest, buffer, ptr =>
    if ptr + 1 < size then
      match put size buffer ptr byte with
      | .error fault => .error fault
      | .ok buffer => putText size rest buffer (ptr + 1)
    else .ok (buffer, ptr)

/-- The digit loop of `int_to_str_pad`: `temp`, the last digit first. -/
def strDigits : Nat → Word → List Byte → List Byte
  | 0, _, temp => temp
  | turns + 1, value, temp =>
    if 0 < value.toInt then strDigits turns (value.sdiv 10) (temp ++ [48 + (value.srem 10).setWidth 8]) else temp

/-- The string of `int_to_str_pad`: `temp` is filled up to `width` or 11 digits
and turned around. -/
def strText (value width : Word) : List Byte :=
  let temp := if value = 0 then [48] else strDigits 11 value []
  (temp ++ List.replicate ((min width.toInt 11).toNat - temp.length) 48).reverse

def hexChars : List Byte := "0123456789ABCDEF".toList.map fun character => BitVec.ofNat 8 character.toNat

/-- The string of `int_to_hex_pad`, which is written from its end. -/
def hexText : Nat → Word → List Byte
  | 0, _ => []
  | width + 1, value => hexText width (value >>> 4) ++ [hexChars.getD (value &&& 0xF).toNat 0]

/-- `int_to_str_pad(value, tmp, width)` -/
def intToStrPad (value width : Word) : Except LogFault (List Byte) :=
  if (strText value width).length < tmpSize then .ok (strText value width) else .error .tmpWrite

/-- `int_to_hex_pad(value, tmp, width)`; the terminator is `tmp[width]`. -/
def intToHexPad (value width : Word) : Except LogFault (List Byte) :=
  if width.toNat < tmpSize then .ok (hexText width.toNat value) else .error .tmpWrite

/-- The loop over the digits of a width. -/
def readWidth : List Byte → Word → Word × List Byte
  | [], width => (width, [])
  | byte :: rest, width =>
    if 48 ≤ byte ∧ byte ≤ 57 then readWidth rest (width * 10 + (byte.setWidth 32 - 48)) else (width, byte :: rest)

/-- The width behind a `%`, and the format from the conversion on. -/
def directive (fmt : List Byte) : Word × List Byte := readWidth (if fmt.head? = some 48 then fmt.tail else fmt) 0

/-- The width that was read, or the conversion's own one without it. -/
def orWidth (width own : Word) : Word := if 0 < width.toInt then width else own

/-- One conversion: `d` and `u`, `x`, `s`, or a character that is copied. -/
def convert (size : Nat) (conv : Byte) (width : Word) (arg : VaArg) (buffer : Bytes) (ptr : Nat) :
    Except LogFault (Bytes × Nat) :=
  if conv = 100 ∨ conv = 117 then
    match intToStrPad arg.number (orWidth width 1) with
    | .error fault => .error fault
    | .ok tmp => putText size tmp buffer ptr
  else if conv = 120 then
    match intToHexPad arg.number (orWidth width 8) with
    | .error fault => .error fault
    | .ok tmp => putText size tmp buffer ptr
  else if conv = 115 then
    match arg.string with
    | none => .ok (buffer, ptr)
    | some text => putText size text.bytes buffer ptr
  else putText size [conv] buffer ptr

/-- How many arguments a conversion takes. -/
def takes (conv : Byte) : Nat := if conv = 100 ∨ conv = 117 ∨ conv = 120 ∨ conv = 115 then 1 else 0

theorem length_readWidth (fmt : List Byte) (width : Word) : (readWidth fmt width).2.length ≤ fmt.length := by
  induction fmt generalizing width with
  | nil => exact Nat.le_refl _
  | cons byte rest ih =>
    rw [readWidth]
    split
    · exact (ih _).trans (Nat.le_succ _)
    · exact Nat.le_refl _

theorem length_directive (fmt : List Byte) : (directive fmt).2.length ≤ fmt.length := by
  refine (length_readWidth _ _).trans ?_
  split
  · exact (List.length_tail ▸ Nat.sub_le _ _)
  · exact Nat.le_refl _

theorem conversion_shorter {fmt rest : List Byte} {width : Word} {conv : Byte} (read : directive fmt = (width, conv :: rest)) :
    rest.length < fmt.length := by
  have bound := length_directive fmt
  rw [read] at bound
  exact bound

/-- The outer loop. A terminator in the place of a conversion is copied, and the
loop goes on to read behind it. -/
def formatLoop (size : Nat) (args : Nat → VaArg) (fmt : List Byte) (next : Nat) (buffer : Bytes) (ptr : Nat) :
    Except LogFault (Bytes × Nat) :=
  match fmt with
  | [] => .ok (buffer, ptr)
  | byte :: rest =>
    if ptr + 1 < size then
      if byte = 37 ∧ rest ≠ [] then
        match _ : directive rest with
        | (_, []) => .error .formatRead
        | (width, conv :: fmt) =>
          match convert size conv width (args next) buffer ptr with
          | .error fault => .error fault
          | .ok (buffer, ptr) => formatLoop size args fmt (next + takes conv) buffer ptr
      else
        match put size buffer ptr byte with
        | .error fault => .error fault
        | .ok buffer => formatLoop size args rest next buffer (ptr + 1)
    else .ok (buffer, ptr)
termination_by fmt.length
decreasing_by
  · exact (conversion_shorter ‹_›).trans (Nat.lt_succ_self _)
  · exact Nat.lt_succ_self _

/-- The arguments are taken in the order of the conversions. -/
def formatLogMessage (buffer : Bytes) (size : Nat) (format : CString) (args : Nat → VaArg) : Except LogFault Bytes :=
  match formatLoop size args format.bytes 0 buffer 0 with
  | .error fault => .error fault
  | .ok (buffer, ptr) => put size buffer ptr 0

/-- A part of a format: a character that is copied, a conversion, or a directive
that the format ends in. -/
inductive Piece
  | plain (byte : Byte)
  | conversion (width : Word) (conv : Byte)
  | cut

def pieces : List Byte → List Piece
  | [] => []
  | byte :: rest =>
    if byte = 37 ∧ rest ≠ [] then
      match _ : directive rest with
      | (_, []) => [.cut]
      | (width, conv :: fmt) => .conversion width conv :: pieces fmt
    else .plain byte :: pieces rest
termination_by fmt => fmt.length
decreasing_by
  · exact (conversion_shorter ‹_›).trans (Nat.lt_succ_self _)
  · exact Nat.lt_succ_self _

namespace Piece

/-- What a piece stands for. -/
def text (arg : VaArg) : Piece → List Byte
  | plain byte => [byte]
  | conversion width conv =>
    if conv = 100 ∨ conv = 117 then strText arg.number (orWidth width 1)
    else if conv = 120 then hexText (orWidth width 8).toNat arg.number
    else if conv = 115 then (arg.string.map CString.bytes).getD []
    else [conv]
  | cut => []

def takes : Piece → Nat
  | conversion _ conv => Lib.takes conv
  | _ => 0

/-- A directive that has its conversion, with room for a hexadecimal number and
its terminator. -/
def Harmless : Piece → Prop
  | plain _ => True
  | conversion width conv => conv = 120 → (orWidth width 8).toNat < tmpSize
  | cut => False

end Piece

/-- The pieces that begin before `room` bytes are full are harmless. -/
def Harmless (args : Nat → VaArg) : List Piece → Nat → Nat → Prop
  | [], _, _ => True
  | piece :: rest, next, room =>
    room = 0 ∨ (piece.Harmless ∧ Harmless args rest (next + piece.takes) (room - (piece.text (args next)).length))

section Numbers

theorem length_strDigits (turns : Nat) (value : Word) (temp : List Byte) :
    (strDigits turns value temp).length ≤ temp.length + turns := by
  induction turns generalizing value temp with
  | zero => exact Nat.le_refl _
  | succ turns ih =>
    rw [strDigits]
    split
    · have longer := ih (value.sdiv 10) (temp ++ [48 + (value.srem 10).setWidth 8])
      rw [List.length_append, List.length_singleton] at longer
      omega
    · omega

theorem length_strText (value width : Word) : (strText value width).length < tmpSize := by
  have digits : (if value = 0 then [48] else strDigits 11 value []).length ≤ 11 := by
    split
    · decide
    · exact length_strDigits 11 value []
  have wide := Int.min_le_right width.toInt 11
  rw [strText, List.length_reverse, List.length_append, List.length_replicate, tmpSize]
  omega

end Numbers

section Loop

variable {size ptr : Nat} {buffer : Bytes} (inside : ptr < size)

include inside

theorem putText_eq (text : List Byte) : ∃ after, putText size text buffer ptr =
    .ok (after, ptr + min text.length (size - 1 - ptr)) := by
  induction text generalizing buffer ptr with
  | nil =>
    rw [putText, List.length_nil, Nat.zero_min]
    exact ⟨buffer, rfl⟩
  | cons byte rest ih =>
    rw [putText]
    split
    · next room =>
      obtain ⟨after, call⟩ := @ih (ptr + 1) (Function.update buffer ptr byte) room
      rw [put, if_pos inside]
      dsimp only
      rw [call, List.length_cons]
      refine ⟨after, ?_⟩
      congr 2
      omega
    · refine ⟨buffer, ?_⟩
      congr 2
      omega

theorem convert_eq {width : Word} {conv : Byte} {arg : VaArg} (harmless : (Piece.conversion width conv).Harmless) :
    ∃ after, convert size conv width arg buffer ptr =
      .ok (after, ptr + min ((Piece.conversion width conv).text arg).length (size - 1 - ptr)) := by
  rw [convert, Piece.text]
  split
  · rw [intToStrPad, if_pos (length_strText _ _)]
    exact putText_eq inside _
  split
  · next hexadecimal =>
    rw [intToHexPad, if_pos (harmless hexadecimal)]
    exact putText_eq inside _
  split
  · cases arg.string with
    | none =>
      refine ⟨buffer, congrArg Except.ok (Prod.ext rfl ?_)⟩
      exact (congrArg (ptr + ·) (Nat.zero_min _)).symm
    | some text => exact putText_eq inside _
  · exact putText_eq inside _

omit inside in
theorem convert_harmful {width : Word} {conv : Byte} {arg : VaArg} (harmful : ¬ (Piece.conversion width conv).Harmless) :
    convert size conv width arg buffer ptr = .error .tmpWrite := by
  obtain ⟨rfl, wide⟩ := Classical.not_imp.mp harmful
  rw [convert, if_neg (by decide), if_pos rfl, intToHexPad, if_neg wide]

end Loop

section Steps

variable {byte conv : Byte} {rest fmt : List Byte} {width : Word}

theorem pieces_cut (begins : byte = 37 ∧ rest ≠ []) (read : directive rest = (width, [])) : pieces (byte :: rest) = [.cut] := by
  rw [pieces, if_pos begins]
  split
  · rfl
  · next other =>
    rw [read] at other
    cases other

theorem pieces_conversion (begins : byte = 37 ∧ rest ≠ []) (read : directive rest = (width, conv :: fmt)) :
    pieces (byte :: rest) = .conversion width conv :: pieces fmt := by
  rw [pieces, if_pos begins]
  split
  · next other =>
    rw [read] at other
    cases other
  · next other =>
    rw [read] at other
    cases other
    rfl

theorem pieces_plain (copied : ¬ (byte = 37 ∧ rest ≠ [])) : pieces (byte :: rest) = .plain byte :: pieces rest := by
  rw [pieces, if_neg copied]

variable {size ptr next : Nat} {args : Nat → VaArg} {buffer : Bytes}

theorem formatLoop_full (full : ¬ ptr + 1 < size) : formatLoop size args fmt next buffer ptr = .ok (buffer, ptr) := by
  cases fmt with
  | nil => rw [formatLoop]
  | cons byte rest => rw [formatLoop, if_neg full]

variable (room : ptr + 1 < size)

include room

theorem formatLoop_cut (begins : byte = 37 ∧ rest ≠ []) (read : directive rest = (width, [])) :
    formatLoop size args (byte :: rest) next buffer ptr = .error .formatRead := by
  rw [formatLoop, if_pos room, if_pos begins]
  split
  · rfl
  · next other =>
    rw [read] at other
    cases other

theorem formatLoop_conversion (begins : byte = 37 ∧ rest ≠ []) (read : directive rest = (width, conv :: fmt)) :
    formatLoop size args (byte :: rest) next buffer ptr =
      match convert size conv width (args next) buffer ptr with
      | .error fault => .error fault
      | .ok (buffer, ptr) => formatLoop size args fmt (next + takes conv) buffer ptr := by
  rw [formatLoop, if_pos room, if_pos begins]
  split
  · next other =>
    rw [read] at other
    cases other
  · next other =>
    rw [read] at other
    cases other
    rfl

theorem formatLoop_plain (copied : ¬ (byte = 37 ∧ rest ≠ [])) :
    formatLoop size args (byte :: rest) next buffer ptr =
      formatLoop size args rest next (Function.update buffer ptr byte) (ptr + 1) := by
  have inside : ptr < size := by omega
  rw [formatLoop, if_pos room, if_neg copied, put, if_pos inside]

end Steps

theorem harmless_zero (args : Nat → VaArg) (parts : List Piece) (next : Nat) : Harmless args parts next 0 := by
  cases parts with
  | nil => trivial
  | cons _ _ => exact .inl rfl

section Runs

variable {size ptr : Nat} (inside : ptr < size) (args : Nat → VaArg) (fmt : List Byte) (next : Nat) (buffer : Bytes)

include inside

theorem formatLoop_iff_full (full : ¬ ptr + 1 < size) :
    (∃ after last, formatLoop size args fmt next buffer ptr = .ok (after, last) ∧ last < size) ↔
      Harmless args (pieces fmt) next (size - 1 - ptr) := by
  have none : size - 1 - ptr = 0 := by omega
  rw [formatLoop_full full, none]
  exact iff_of_true ⟨buffer, ptr, rfl, inside⟩ (harmless_zero args _ next)

/-- The loop goes through exactly when the pieces that it comes to are
harmless. -/
theorem formatLoop_iff : (∃ after last, formatLoop size args fmt next buffer ptr = .ok (after, last) ∧ last < size) ↔
    Harmless args (pieces fmt) next (size - 1 - ptr) := by
  induction fmt using pieces.induct generalizing next buffer ptr with
  | case1 =>
    rw [formatLoop, pieces]
    exact iff_of_true ⟨buffer, ptr, rfl, inside⟩ trivial
  | case2 byte rest begins width read =>
    by_cases room : ptr + 1 < size
    · rw [formatLoop_cut room begins read, pieces_cut begins read]
      refine iff_of_false ?_ ?_
      · rintro ⟨_, _, call, _⟩
        cases call
      · rintro (none | ⟨harmless, _⟩)
        · omega
        · exact harmless
    · exact formatLoop_iff_full inside args _ next buffer room
  | case3 byte rest begins width conv fmt read ih =>
    by_cases room : ptr + 1 < size
    · rw [formatLoop_conversion room begins read, pieces_conversion begins read, Harmless]
      by_cases harmless : (Piece.conversion width conv).Harmless
      · obtain ⟨after, call⟩ := @convert_eq size ptr buffer inside width conv (args next) harmless
        generalize ((Piece.conversion width conv).text (args next)).length = length at call ⊢
        have left : size - 1 - (ptr + min length (size - 1 - ptr)) = size - 1 - ptr - length := by omega
        have later := @ih (ptr + min length (size - 1 - ptr)) (by omega) (next + takes conv) after
        rw [call]
        dsimp only
        rw [later, left]
        constructor
        · exact fun rest => .inr ⟨harmless, rest⟩
        · rintro (none | ⟨_, rest⟩)
          · omega
          · exact rest
      · rw [convert_harmful harmless]
        refine iff_of_false ?_ ?_
        · rintro ⟨_, _, call, _⟩
          cases call
        · rintro (none | ⟨other, _⟩)
          · omega
          · exact harmless other
    · exact formatLoop_iff_full inside args _ next buffer room
  | case4 byte rest copied ih =>
    by_cases room : ptr + 1 < size
    · rw [formatLoop_plain room copied, pieces_plain copied, Harmless, ih room]
      constructor
      · exact fun rest => .inr ⟨trivial, rest⟩
      · rintro (none | ⟨_, rest⟩)
        · omega
        · exact rest
    · exact formatLoop_iff_full inside args _ next buffer room

end Runs

/-- The call stays inside its buffers and its format, and leaves a string. -/
def FormatsSafely (buffer : Bytes) (size : Nat) (format : CString) (args : Nat → VaArg) : Prop :=
  ∃ after, formatLogMessage buffer size format args = .ok after ∧ ∃ place < size, after place = 0

/-- A call is safe exactly when there is room for a terminator and the pieces
that the rendered text leaves room for are harmless. -/
theorem formatsSafely_iff (buffer : Bytes) (size : Nat) (format : CString) (args : Nat → VaArg) :
    FormatsSafely buffer size format args ↔ 0 < size ∧ Harmless args (pieces format.bytes) 0 (size - 1) := by
  rw [FormatsSafely, formatLogMessage]
  constructor
  · rintro ⟨after, call, place, bound, _⟩
    have positive : 0 < size := by omega
    refine ⟨positive, (formatLoop_iff positive args format.bytes 0 buffer).mp ?_⟩
    split at call
    · cases call
    · next filled last loop =>
      rw [put] at call
      split at call
      · next inside => exact ⟨filled, last, loop, inside⟩
      · cases call
  · rintro ⟨positive, harmless⟩
    obtain ⟨filled, last, loop, inside⟩ := (formatLoop_iff positive args format.bytes 0 buffer).mpr harmless
    rw [loop]
    exact ⟨_, if_pos inside, last, inside, Function.update_self ..⟩

/-- The format ends inside its directive. -/
theorem format_reads_behind : ¬ ∀ (buffer : Bytes) (size : Nat) (format : CString) (args : Nat → VaArg), 0 < size →
    FormatsSafely buffer size format args := by
  intro claim
  obtain ⟨after, call, _⟩ := claim Bytes.zero 128 ⟨[37, 53], by decide⟩ (fun _ => ⟨0, none⟩) (by decide)
  rw [formatLogMessage, @formatLoop_cut 37 [53] 5 128 0 0 _ _ (by decide) (by decide) rfl] at call
  cases call

end MexOS.Lib
