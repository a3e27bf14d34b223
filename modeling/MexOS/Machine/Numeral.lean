import MexOS.Machine.Bytes
import Mathlib.Data.Nat.Digits.Lemmas

/-! Numerals in bases up to 36, as bytes. -/

namespace MexOS.Machine.Numeral

/-- The digit that a byte stands for. -/
def digitValue (byte : Byte) : Option Nat :=
  if 48 ≤ byte.toNat ∧ byte.toNat < 58 then some (byte.toNat - 48)
  else if 65 ≤ byte.toNat ∧ byte.toNat < 91 then some (byte.toNat - 55)
  else none

/-- The byte that stands for a digit. -/
def digitByte (digit : Nat) : Byte := BitVec.ofNat 8 (if digit < 10 then 48 + digit else 55 + digit)

/-- Read digits behind those that make up `value`. -/
def readDigits (base : Nat) : Nat → List Byte → Option Nat
  | value, [] => some value
  | value, byte :: rest =>
    match digitValue byte with
    | none => none
    | some digit => if digit < base then readDigits base (value * base + digit) rest else none

/-- The number that a numeral denotes; it may start with a minus sign. -/
def read (base : Nat) : List Byte → Option Int
  | [] => none
  | byte :: rest =>
    if byte = 45 then if rest = [] then none else (readDigits base 0 rest).map fun (value : Nat) => -(value : Int)
    else (readDigits base 0 (byte :: rest)).map fun (value : Nat) => (value : Int)

/-- The bytes behind the sign. -/
def unsigned (text : List Byte) : List Byte := if text.head? = some 45 then text.tail else text

/-- A zero comes first only in the numeral of zero. -/
def Unpadded (text : List Byte) : Prop := unsigned text = [48] ∨ (unsigned text).head? ≠ some 48

/-- The digits of a number, the last one first; zero has one, too. -/
def digitsOf (base n : Nat) : List Nat := if n = 0 then [0] else Nat.digits base n

/-- The numeral of an integer. -/
def write (base : Nat) (value : Int) : List Byte :=
  (if value < 0 then [45] else []) ++ ((digitsOf base value.natAbs).map digitByte).reverse

theorem digitValue_digitByte {digit : Nat} (small : digit < 36) : digitValue (digitByte digit) = some digit := by
  revert digit
  decide

theorem digitByte_visible {digit : Nat} (small : digit < 36) : digitByte digit ≠ 0 ∧ digitByte digit ≠ 45 := by
  revert digit
  decide

theorem digitByte_eq_zero {digit : Nat} (small : digit < 36) : digitByte digit = 48 ↔ digit = 0 := by
  revert digit
  decide

theorem readDigits_append (base value : Nat) (front back : List Byte) : readDigits base value (front ++ back) =
    (readDigits base value front).bind fun value => readDigits base value back := by
  induction front generalizing value with
  | nil => rfl
  | cons byte front ih =>
    rw [List.cons_append, readDigits, readDigits]
    cases digitValue byte with
    | none => rfl
    | some digit =>
      dsimp only
      split
      · exact ih _
      · rfl

section Digits

variable {base : Nat}

theorem readDigits_reverse (upper : base ≤ 36) {digits : List Nat} (small : ∀ digit ∈ digits, digit < base) :
    readDigits base 0 (digits.map digitByte).reverse = some (Nat.ofDigits base digits) := by
  induction digits with
  | nil => rfl
  | cons digit digits ih =>
    have first := small digit List.mem_cons_self
    have rest := ih fun other member => small other (List.mem_cons_of_mem _ member)
    rw [List.map_cons, List.reverse_cons, readDigits_append, rest, Option.bind_some, readDigits,
      digitValue_digitByte (by omega)]
    dsimp only
    rw [if_pos first, readDigits, Nat.ofDigits_cons]
    congr 1
    rw [Nat.mul_comm, Nat.add_comm]

theorem digitsOf_ne_nil (base n : Nat) : digitsOf base n ≠ [] := by
  rw [digitsOf]
  split
  · exact List.cons_ne_nil _ _
  · next nonzero => exact Nat.digits_ne_nil_iff_ne_zero.mpr nonzero

theorem ofDigits_digitsOf (base n : Nat) : Nat.ofDigits base (digitsOf base n) = n := by
  rw [digitsOf]
  split
  · next zero =>
    rw [zero]
    exact Nat.ofDigits_singleton
  · exact Nat.ofDigits_digits base n

variable (lower : 2 ≤ base)

include lower

theorem digitsOf_lt {n digit : Nat} (member : digit ∈ digitsOf base n) : digit < base := by
  rw [digitsOf] at member
  split at member
  · rw [List.mem_singleton.mp member]
    omega
  · exact Nat.digits_lt_base (by omega) member

/-- The last digit, and the digits of the quotient. -/
theorem digitsOf_step (n : Nat) :
    digitsOf base n = n % base :: if n / base = 0 then [] else digitsOf base (n / base) := by
  by_cases zero : n = 0
  · subst zero
    rw [Nat.zero_div, if_pos rfl, Nat.zero_mod]
    rfl
  · rw [digitsOf, if_neg zero, Nat.digits_def' (by omega) (Nat.pos_of_ne_zero zero)]
    congr 1
    by_cases last : n / base = 0
    · rw [if_pos last, last, Nat.digits_zero]
    · rw [if_neg last, digitsOf, if_neg last]

/-- The first byte of a numeral without a sign. -/
theorem head_digits (n : Nat) : ∃ digit rest, ((digitsOf base n).map digitByte).reverse = digitByte digit :: rest ∧
    digit < base ∧ (digit = 0 → n = 0) := by
  have some := digitsOf_ne_nil base n
  have shape := List.dropLast_append_getLast some
  refine ⟨(digitsOf base n).getLast some, ((digitsOf base n).dropLast.map digitByte).reverse, ?_,
    digitsOf_lt lower (List.getLast_mem some), ?_⟩
  · conv_lhs => rw [← shape]
    rw [List.map_append, List.reverse_append]
    rfl
  · intro zero
    by_contra nonzero
    simp only [digitsOf, if_neg nonzero] at zero
    exact Nat.getLast_digit_ne_zero base nonzero zero

variable (upper : base ≤ 36)

include upper

theorem read_write (value : Int) : read base (write base value) = some value := by
  obtain ⟨digit, rest, shape, small, _⟩ := head_digits lower value.natAbs
  have content := readDigits_reverse upper fun _ member => @digitsOf_lt base lower value.natAbs _ member
  rw [ofDigits_digitsOf, shape] at content
  rw [write, shape]
  split
  · next negative =>
    rw [List.singleton_append, read, if_pos rfl, if_neg (List.cons_ne_nil _ _), content, Option.map_some]
    congr 1
    omega
  · next positive =>
    rw [List.nil_append, read, if_neg (digitByte_visible (by omega)).2, content, Option.map_some]
    congr 1
    omega

theorem unsigned_write (value : Int) :
    unsigned (write base value) = ((digitsOf base value.natAbs).map digitByte).reverse := by
  obtain ⟨digit, rest, shape, small, _⟩ := head_digits lower value.natAbs
  rw [write, shape]
  split
  · rfl
  · rw [List.nil_append, unsigned, if_neg]
    intro sign
    exact (digitByte_visible (by omega)).2 (Option.some.inj sign)

theorem write_unpadded (value : Int) : Unpadded (write base value) := by
  obtain ⟨digit, rest, shape, small, first⟩ := head_digits lower value.natAbs
  rw [Unpadded, unsigned_write lower upper]
  by_cases zero : digit = 0
  · left
    rw [first zero]
    rfl
  · right
    rw [shape]
    intro padded
    exact zero ((digitByte_eq_zero (by omega)).mp (Option.some.inj padded))

theorem write_clean (value : Int) : 0 ∉ write base value := by
  intro member
  rcases List.mem_append.mp member with sign | digit
  · split at sign
    · cases List.mem_singleton.mp sign
    · cases sign
  · obtain ⟨digit, member, zero⟩ := List.mem_map.mp (List.mem_reverse.mp digit)
    have small := digitsOf_lt lower member
    exact (digitByte_visible (by omega)).1 zero

end Digits

end MexOS.Machine.Numeral
