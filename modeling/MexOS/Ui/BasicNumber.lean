import MexOS.Ui.Basic

/-! Numbers that are read and written by the interpreter: the loop that reads a
numeral is inverse to the loop that writes one, where the number is not
negative. -/

namespace MexOS.Ui

open MexOS.Machine

/-- The digit loop of `vterm_write_dec`: the string behind `ptr`. -/
def decDigits : Nat → Word → List Byte → List Byte
  | 0, _, ptr => ptr
  | turns + 1, val, ptr => if 0 < val then decDigits turns (val / 10) ((48 + (val % 10).setWidth 8) :: ptr) else ptr

/-- What `vterm_write_dec` writes; its buffer has room for 11 digits. -/
def vtermWriteDec (val : Word) : List Byte := if val = 0 then [48] else decDigits 11 val []

/-- The byte of a character. -/
def digitByte (digit : Char) : Byte := BitVec.ofNat 8 digit.toNat

theorem decimal_bytes (value : Word) : decimal value = (Nat.toDigits 10 value.toNat).map digitByte := rfl

theorem digitByte_digitChar {digit : Nat} (small : digit < 10) : digitByte digit.digitChar = BitVec.ofNat 8 (48 + digit) := by
  rw [digitByte, Nat.toNat_digitChar_of_lt_ten small]

theorem decDigits_eq (turns : Nat) (val : Word) (ptr : List Byte) (positive : 0 < val) (enough : val.toNat < 10 ^ turns) :
    decDigits turns val ptr = (Nat.toDigits 10 val.toNat).map digitByte ++ ptr := by
  induction turns generalizing val ptr with
  | zero =>
    have some : 0 < val.toNat := positive
    omega
  | succ turns ih =>
    have quotient : (val / 10).toNat = val.toNat / 10 := BitVec.toNat_udiv
    have remainder : (val % 10).toNat = val.toNat % 10 := BitVec.toNat_umod
    have last : 48 + (val % 10).setWidth 8 = digitByte (val.toNat % 10).digitChar := by
      rw [digitByte_digitChar (Nat.mod_lt _ (by decide))]
      apply BitVec.eq_of_toNat_eq
      rw [BitVec.toNat_add, BitVec.toNat_setWidth, remainder, BitVec.toNat_ofNat]
      have digit := Nat.mod_lt val.toNat (by decide : 0 < 10)
      rw [Nat.mod_eq_of_lt (by omega : val.toNat % 10 < 2 ^ 8)]
      rfl
    rw [decDigits, if_pos positive, last, Nat.toDigits_eq_if (by decide)]
    split
    · next small =>
      have done : ¬ (0 : Word) < val / 10 := by
        rw [BitVec.lt_def, quotient, Nat.div_eq_of_lt small]
        exact Nat.lt_irrefl 0
      rw [Nat.mod_eq_of_lt small]
      cases turns with
      | zero => rfl
      | succ turns =>
        rw [decDigits, if_neg done]
        rfl
    · next large =>
      have more : (0 : Word) < val / 10 := by
        rw [BitVec.lt_def, quotient]
        exact Nat.div_pos (not_lt.mp large) (by decide)
      have fits : (val / 10).toNat < 10 ^ turns := by
        rw [quotient]
        rw [Nat.pow_succ] at enough
        exact Nat.div_lt_of_lt_mul (by omega)
      rw [ih _ _ more fits, quotient, List.map_append, List.append_assoc]
      rfl

/-- The loop writes the numeral. -/
theorem vtermWriteDec_eq (val : Word) : vtermWriteDec val = decimal val := by
  rw [vtermWriteDec]
  split
  · next zero =>
    rw [zero]
    decide
  · next nonzero =>
    have positive : 0 < val := by
      rw [BitVec.lt_def]
      exact Nat.pos_of_ne_zero fun zero => nonzero (BitVec.eq_of_toNat_eq zero)
    rw [decDigits_eq 11 val [] positive (val.isLt.trans (by decide)), List.append_nil, decimal_bytes]

/-- The decimal numeral of an integer. -/
def numeral (n : Int) : List Byte := (if n < 0 then [45] else []) ++ (Nat.toDigits 10 n.natAbs).map digitByte

theorem isDigit_digitByte {digit : Char} (decimal : digit.isDigit) : isDigit (digitByte digit) := by
  rw [Char.isDigit, Bool.and_eq_true, decide_eq_true_eq, decide_eq_true_eq] at decimal
  have lower : 48 ≤ digit.toNat := decimal.1
  have upper : digit.toNat ≤ 57 := decimal.2
  have value : (digitByte digit).toNat = digit.toNat := by
    rw [digitByte, BitVec.toNat_ofNat, Nat.mod_eq_of_lt (by omega)]
  rw [isDigit, decide_eq_true_eq, BitVec.le_def, BitVec.le_def, value]
  exact ⟨lower, upper⟩

/-- The loop that reads digits computes modulo 2^32. -/
theorem digitsValue_digits (digits : List Char) (decimal : ∀ digit ∈ digits, digit.isDigit) (result : Nat) :
    digitsValue (BitVec.ofNat 32 result) (digits.map digitByte) = BitVec.ofNat 32 (Nat.ofDigitChars 10 digits result) := by
  induction digits generalizing result with
  | nil => rfl
  | cons digit digits ih =>
    have first := decimal digit List.mem_cons_self
    have bounds := first
    rw [Char.isDigit, Bool.and_eq_true, decide_eq_true_eq, decide_eq_true_eq] at bounds
    have lower : 48 ≤ digit.toNat := bounds.1
    have upper : digit.toNat ≤ 57 := bounds.2
    have next : BitVec.ofNat 32 result * 10 + ((digitByte digit).setWidth 32 - 48) =
        BitVec.ofNat 32 (10 * result + (digit.toNat - 48)) := by
      have ten : (10 : Word).toNat = 10 := rfl
      have base : (48 : Word).toNat = 48 := rfl
      apply BitVec.eq_of_toNat_eq
      rw [digitByte]
      simp only [BitVec.toNat_add, BitVec.toNat_mul, BitVec.toNat_sub, BitVec.toNat_setWidth, BitVec.toNat_ofNat, ten, base]
      omega
    rw [List.map_cons, digitsValue, if_pos (isDigit_digitByte first), next,
      ih fun digit member => decimal digit (List.mem_cons_of_mem _ member), Nat.ofDigitChars_cons]
    rfl

theorem digitsValue_toDigits (n : Nat) :
    digitsValue 0 ((Nat.toDigits 10 n).map digitByte) = BitVec.ofNat 32 n := by
  have digits : ∀ digit ∈ Nat.toDigits 10 n, digit.isDigit := fun _ member =>
    Nat.isDigit_of_mem_toDigits (by decide) (by decide) member
  exact (digitsValue_digits _ digits 0).trans (congrArg _ Nat.ofDigitChars_ten_toDigits)

theorem toDigits_head (n : Nat) : ∃ digit rest, (Nat.toDigits 10 n).map digitByte = digitByte digit :: rest ∧ digit.isDigit := by
  have digits (digit : Char) (member : digit ∈ Nat.toDigits 10 n) : digit.isDigit :=
    Nat.isDigit_of_mem_toDigits (by decide) (by decide) member
  cases content : Nat.toDigits 10 n with
  | nil => exact absurd content Nat.toDigits_ne_nil
  | cons digit rest =>
    rw [content] at digits
    exact ⟨digit, rest.map digitByte, rfl, digits digit List.mem_cons_self⟩

/-- A digit is no blank, no letter and no sign. -/
theorem isDigit_apart {byte : Byte} (decimal : isDigit byte) :
    ¬ (byte = 32 ∨ byte = 9) ∧ isLetter byte = false ∧ byte ≠ 45 ∧ byte ≠ 34 := by
  revert byte
  decide

theorem skipSpaces_cons {byte : Byte} {rest : List Byte} (visible : ¬ (byte = 32 ∨ byte = 9)) :
    skipSpaces (byte :: rest) = byte :: rest :=
  List.dropWhile_cons_of_neg (by simpa using visible)

theorem strToInt_numeral (n : Int) : strToInt (numeral n) = BitVec.ofInt 32 n := by
  obtain ⟨digit, rest, content, decimal⟩ := toDigits_head n.natAbs
  have value := digitsValue_toDigits n.natAbs
  obtain ⟨visible, _, unsigned, _⟩ := isDigit_apart (isDigit_digitByte decimal)
  rw [content] at value
  rw [strToInt, numeral, content]
  split
  · next negative =>
    have signed : BitVec.ofNat 32 n.natAbs * -1 = BitVec.ofInt 32 (n.natAbs * -1) := by
      rw [BitVec.ofInt_mul, BitVec.ofInt_natCast]
      rfl
    rw [List.singleton_append, skipSpaces_cons (by decide), List.headD_cons, if_pos rfl, List.tail_cons, value, signed]
    congr 1
    omega
  · next positive =>
    rw [List.nil_append, skipSpaces_cons visible, List.headD_cons, if_neg unsigned, value, ← BitVec.ofInt_natCast]
    congr 1
    omega

/-- A number that is not negative is written as it is read. -/
theorem decimal_ofInt {n : Int} (positive : 0 ≤ n) (small : n < 2 ^ 31) : decimal (BitVec.ofInt 32 n) = numeral n := by
  have value : (BitVec.ofInt 32 n).toNat = n.natAbs := by
    rw [BitVec.toNat_ofInt]
    omega
  rw [decimal_bytes, numeral, value, if_neg (Int.not_lt.mpr positive), List.nil_append]

/-- No sign is ever written. -/
theorem decimal_unsigned {n : Int} (negative : n < 0) (value : Word) : decimal value ≠ numeral n := by
  obtain ⟨digit, rest, content, decimal⟩ := toDigits_head value.toNat
  rw [decimal_bytes, content, numeral, if_pos negative, List.singleton_append]
  intro same
  exact (isDigit_apart (isDigit_digitByte decimal)).2.2.1 (List.cons.inj same).1

namespace Basic

variable (basic : Basic)

theorem evaluateExpression_numeral (n : Int) : basic.evaluateExpression (numeral n) = BitVec.ofInt 32 n := by
  have value := strToInt_numeral n
  obtain ⟨digit, rest, content, decimal⟩ := toDigits_head n.natAbs
  obtain ⟨visible, noLetter, _, _⟩ := isDigit_apart (isDigit_digitByte decimal)
  rw [evaluateExpression]
  rw [numeral, content] at value ⊢
  by_cases negative : n < 0
  · rw [if_pos negative, List.singleton_append] at value ⊢
    rw [skipSpaces_cons (by decide), List.headD_cons, if_neg (by decide), if_pos (.inl rfl)]
    exact value
  · rw [if_neg negative, List.nil_append] at value ⊢
    rw [skipSpaces_cons visible, List.headD_cons, noLetter, if_neg Bool.false_ne_true,
      if_pos (.inr (isDigit_digitByte decimal))]
    exact value

/-- `LET X=n` -/
def letLine (letter : Byte) (n : Int) : List Byte := ascii "LET " ++ letter :: ascii "=" ++ numeral n

/-- `PRINT X` -/
def printLine (letter : Byte) : List Byte := ascii "PRINT " ++ [letter]

/-- The variable of the letter has a new value. -/
def setVar (letter : Byte) (value : Word) : Basic :=
  { basic with vars := Function.update basic.vars (letter - 65).toNat value }

theorem isLetter_visible {letter : Byte} (isName : isLetter letter) : ¬ (letter = 32 ∨ letter = 9) ∧ letter ≠ 34 := by
  revert letter
  decide

variable {letter : Byte} (isName : isLetter letter) (n : Int) (fuel : Nat)

include isName

theorem executeLine_letLine : basic.executeLine fuel (letLine letter n) = some (0, basic.setVar letter (BitVec.ofInt 32 n)) := by
  have line : letLine letter n = 76 :: 69 :: 84 :: 32 :: letter :: 61 :: numeral n := rfl
  have noPrint : (ascii "PRINT").isPrefixOf (letLine letter n) = false := rfl
  have isLet : (ascii "LET").isPrefixOf (letLine letter n) = true := rfl
  have trimmed : skipSpaces (letLine letter n) = letLine letter n := skipSpaces_cons (by decide)
  rw [executeLine, executeLineWith, trimmed, if_neg (by rw [line]; exact List.cons_ne_nil _ _), noPrint,
    if_neg Bool.false_ne_true, isLet, if_pos rfl, executeLet]
  have text : skipSpaces ((letLine letter n).drop 3) = letter :: 61 :: numeral n :=
    skipSpaces_cons (isLetter_visible isName).1
  have equals : skipSpaces (61 :: numeral n) = 61 :: numeral n := skipSpaces_cons (by decide)
  rw [text, List.headD_cons, List.tail_cons, if_neg (not_not.mpr isName), equals]
  dsimp only
  rw [List.headD_cons, if_neg (not_not.mpr rfl), List.tail_cons, evaluateExpression_numeral]
  rfl

theorem executeLine_printLine : basic.executeLine fuel (printLine letter) =
    some (0, basic.write (decimal (basic.vars (letter - 65).toNat) ++ [10])) := by
  have line : printLine letter = [80, 82, 73, 78, 84, 32, letter] := rfl
  have isPrint : (ascii "PRINT").isPrefixOf (printLine letter) = true := rfl
  have trimmed : skipSpaces (printLine letter) = printLine letter := skipSpaces_cons (by decide)
  have visible := isLetter_visible isName
  have text : skipSpaces ((printLine letter).drop 5) = [letter] := skipSpaces_cons visible.1
  have again : skipSpaces [letter] = [letter] := skipSpaces_cons visible.1
  rw [executeLine, executeLineWith, trimmed, if_neg (by rw [line]; exact List.cons_ne_nil _ _), isPrint, if_pos rfl,
    executePrint, text, List.headD_cons, if_neg visible.2, if_pos (List.cons_ne_nil _ _), evaluateExpression, again,
    List.headD_cons, if_pos isName]
  rfl

omit isName in
@[simp] theorem setVar_same (value : Word) : (basic.setVar letter value).vars (letter - 65).toNat = value :=
  Function.update_self ..

theorem console_print_let (text : List Byte) :
    (∃ stored after, basic.executeLine fuel (letLine letter n) = some (0, stored) ∧
      stored.executeLine fuel (printLine letter) = some (0, after) ∧ after.console = text) ↔
    basic.console ++ (decimal (BitVec.ofInt 32 n) ++ [10]) = text := by
  have printed := (basic.setVar letter (BitVec.ofInt 32 n)).executeLine_printLine isName fuel
  rw [setVar_same] at printed
  constructor
  · rintro ⟨stored, after, assigned, shown, console⟩
    rw [basic.executeLine_letLine isName, Option.some.injEq, Prod.mk.injEq] at assigned
    rw [← assigned.2, printed, Option.some.injEq, Prod.mk.injEq] at shown
    rw [← shown.2] at console
    exact console
  · intro console
    exact ⟨_, _, basic.executeLine_letLine isName n fuel, printed, console⟩

/-- `LET X=n` and then `PRINT X` write the numeral of `n` exactly when `n` is not
negative. -/
theorem print_let_iff (small : n < 2 ^ 31) :
    (∃ stored after, basic.executeLine fuel (letLine letter n) = some (0, stored) ∧
      stored.executeLine fuel (printLine letter) = some (0, after) ∧
      after.console = basic.console ++ (numeral n ++ [10])) ↔ 0 ≤ n := by
  rw [basic.console_print_let isName]
  constructor
  · intro console
    by_contra negative
    have same := List.append_cancel_right (List.append_cancel_left console)
    exact decimal_unsigned (Int.not_le.mp negative) _ same
  · intro positive
    rw [decimal_ofInt positive small]

omit isName in
theorem print_let_seven :
    ∃ stored after, zero.executeLine 0 (letLine 65 7) = some (0, stored) ∧
      stored.executeLine 0 (printLine 65) = some (0, after) ∧
      after.console = zero.console ++ (numeral 7 ++ [10]) :=
  (zero.print_let_iff rfl 7 0 (by decide)).mpr (by decide)

omit isName in
theorem print_let_minus_one :
    ¬ ∃ stored after, zero.executeLine 0 (letLine 65 (-1)) = some (0, stored) ∧
      stored.executeLine 0 (printLine 65) = some (0, after) ∧
      after.console = zero.console ++ (numeral (-1) ++ [10]) := by
  rw [zero.console_print_let rfl]
  intro console
  exact decimal_unsigned (by decide) _ (List.append_cancel_right (List.append_cancel_left console))

end Basic

end MexOS.Ui
