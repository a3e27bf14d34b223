import MexOS.Machine.Numeral
import MexOS.Machine.Strings

/-! `itoa` of `lib/string.c`. -/

namespace MexOS.Lib

open MexOS.Machine

/-- The characters of `digits`. -/
def digits : List Byte := "0123456789ABCDEFGHIJKLMNOPQRSTUVWXYZ".toList.map fun character => BitVec.ofNat 8 character.toNat

/-- What `digits[index]` reads: the table has 37 bytes, and `around` is the
memory that it is in. -/
def digitAt (around : Int → Byte) (index : Int) : Byte :=
  if 0 ≤ index ∧ index ≤ 36 then digits.getD index.toNat 0 else around index

/-- The loop that produces digits: the buffer, `ptr` and the indices that were
read. -/
def itoaDigits (around : Int → Byte) (base : Word) : Nat → Word → Bytes → Nat → Option (Bytes × Nat × List Int)
  | 0, _, _, _ => none
  | turns + 1, value, str, ptr =>
    let tmpValue := value
    let value := value.sdiv base
    let index := (tmpValue - value * base).toInt
    let str := Function.update str ptr (digitAt around index)
    if value = 0 then some (str, ptr + 1, [index])
    else match itoaDigits around base turns value str (ptr + 1) with
      | none => none
      | some (str, ptr, read) => some (str, ptr, index :: read)

/-- The loop that swaps the bytes from `ptr1` to `ptr`. -/
def itoaReverse (str : Bytes) (ptr1 ptr : Nat) : Bytes :=
  if ptr1 < ptr then
    itoaReverse (Function.update (Function.update str ptr (str ptr1)) ptr1 (str ptr)) (ptr1 + 1) (ptr - 1)
  else str
termination_by ptr - ptr1

/-- No word has more digits. -/
def maxDigits : Nat := 32

/-- The buffer afterwards, and the indices of `digits` that were read. -/
def itoa (around : Int → Byte) (value : Word) (str : Bytes) (base : Word) : Option (Bytes × List Int) :=
  if base.toInt < 2 ∨ 36 < base.toInt then some (Function.update str 0 0, [])
  else
    let isNegative := value.toInt < 0 ∧ base = 10
    let value := if isNegative then -value else value
    match itoaDigits around base maxDigits value str 0 with
    | none => none
    | some (str, ptr, read) =>
      let (str, ptr) := if isNegative then (Function.update str ptr 45, ptr + 1) else (str, ptr)
      let str := Function.update str ptr 0
      some (itoaReverse str 0 (ptr - 1), read)

theorem itoaReverse_apply (str : Bytes) (ptr1 ptr place : Nat) : itoaReverse str ptr1 ptr place =
    if ptr1 ≤ place ∧ place ≤ ptr then str (ptr1 + ptr - place) else str place := by
  induction str, ptr1, ptr using itoaReverse.induct with
  | case1 str ptr1 ptr before ih =>
    rw [itoaReverse, if_pos before, ih]
    by_cases first : place = ptr1
    · subst first
      rw [if_neg (by omega), if_pos (by omega), Function.update_self, Nat.add_sub_cancel_left]
    by_cases last : place = ptr
    · subst last
      rw [if_neg (by omega), if_pos (by omega), Function.update_of_ne (by omega), Function.update_self,
        Nat.add_sub_cancel]
    by_cases inside : ptr1 ≤ place ∧ place ≤ ptr
    · rw [if_pos (by omega), if_pos inside, Function.update_of_ne (by omega), Function.update_of_ne (by omega)]
      congr 1
      omega
    · rw [if_neg (by omega), if_neg inside, Function.update_of_ne first, Function.update_of_ne last]
  | case2 str ptr1 ptr done =>
    rw [itoaReverse, if_neg done]
    split
    · congr 1
      omega
    · rfl

theorem itoaReverse_toList (str : Bytes) (last : Nat) :
    (itoaReverse str 0 last).toList (last + 1) = (str.toList (last + 1)).reverse := by
  apply List.ext_getElem
  · simp
  · intro place inside _
    have bound : place < last + 1 := by simpa using inside
    simp only [Bytes.toList, List.getElem_map, List.getElem_range, List.getElem_reverse, List.length_map, List.length_range,
      itoaReverse_apply]
    rw [if_pos (by omega)]
    congr 1
    omega

theorem digitAt_eq (around : Int → Byte) {digit : Nat} (small : digit < 36) :
    digitAt around digit = Numeral.digitByte digit := by
  have table : ∀ digit < 36, digits.getD digit 0 = Numeral.digitByte digit := by decide
  rw [digitAt, if_pos (by omega), Int.toNat_natCast, table digit small]

section Division

variable {value base : Word} (lower : 2 ≤ base.toInt)

include lower

theorem toInt_quotient : (value.sdiv base).toInt = value.toInt.tdiv base.toInt := by
  apply BitVec.toInt_sdiv_of_ne_or_ne
  right
  intro minus
  rw [minus] at lower
  exact absurd lower (by decide)

/-- The index is the remainder of the truncated division. -/
theorem toInt_index : (value - value.sdiv base * base).toInt = value.toInt.tmod base.toInt := by
  have low := Int.lt_tmod_of_pos value.toInt (by omega : 0 < base.toInt)
  have high := Int.tmod_lt_of_pos value.toInt (by omega : 0 < base.toInt)
  have width := base.toInt_lt
  rw [BitVec.toInt_sub, BitVec.toInt_mul, Int.sub_bmod_bmod, toInt_quotient lower, Int.mul_comm, ← Int.tmod_def]
  apply Int.bmod_eq_of_le <;> omega

theorem quotient_eq_zero : value.sdiv base = 0 ↔ value.toInt.tdiv base.toInt = 0 := by
  rw [← toInt_quotient lower]
  constructor
  · intro zero
    rw [zero]
    rfl
  · intro zero
    exact BitVec.eq_of_toInt_eq zero

/-- The turns are enough for every word. -/
theorem itoaDigits_returns (around : Int → Byte) {turns : Nat} (enough : value.toInt.natAbs < base.toInt.natAbs ^ (turns + 1))
    (str : Bytes) (ptr : Nat) : ∃ result, itoaDigits around base (turns + 1) value str ptr = some result := by
  induction turns generalizing value str ptr with
  | zero =>
    have last : value.sdiv base = 0 := by
      rw [quotient_eq_zero lower, ← Int.natAbs_eq_zero, Int.natAbs_tdiv]
      rw [Nat.zero_add, Nat.pow_one] at enough
      exact Nat.div_eq_of_lt enough
    rw [itoaDigits, if_pos last]
    exact ⟨_, rfl⟩
  | succ turns ih =>
    rw [itoaDigits]
    split
    · exact ⟨_, rfl⟩
    · have fewer : (value.sdiv base).toInt.natAbs < base.toInt.natAbs ^ (turns + 1) := by
        rw [toInt_quotient lower, Int.natAbs_tdiv]
        rw [Nat.pow_succ, Nat.mul_comm] at enough
        exact Nat.div_lt_of_lt_mul enough
      obtain ⟨result, call⟩ := ih fewer (Function.update str ptr (digitAt around (value - value.sdiv base * base).toInt)) (ptr + 1)
      rw [call]
      exact ⟨_, rfl⟩

/-- Of a negative number some remainder is negative. -/
theorem itoaDigits_negative {around : Int → Byte} {turns : Nat} {str after : Bytes} {ptr last : Nat} {read : List Int}
    (negative : value.toInt < 0) (call : itoaDigits around base turns value str ptr = some (after, last, read)) :
    ∃ index ∈ read, index < 0 := by
  induction turns generalizing value str ptr read with
  | zero => cases call
  | succ turns ih =>
    rw [itoaDigits] at call
    split at call
    · next zero =>
      cases call
      refine ⟨_, List.mem_singleton_self _, ?_⟩
      have parts := Int.tmod_add_mul_tdiv value.toInt base.toInt
      rw [toInt_index lower]
      rw [(quotient_eq_zero lower).mp zero] at parts
      omega
    · next nonzero =>
      have quotient : (value.sdiv base).toInt < 0 := by
        have below := Int.tdiv_nonneg (by omega : 0 ≤ -value.toInt) (by omega : 0 ≤ base.toInt)
        rw [Int.neg_tdiv] at below
        have other : value.toInt.tdiv base.toInt ≠ 0 := fun zero => nonzero ((quotient_eq_zero lower).mpr zero)
        rw [toInt_quotient lower]
        omega
      split at call
      · cases call
      · next rest =>
        cases call
        obtain ⟨index, member, below⟩ := ih quotient rest
        exact ⟨index, List.mem_cons_of_mem _ member, below⟩

section Positive

open Numeral

variable {n : Nat} (sign : value.toInt = n)

include sign

theorem index_eq : (value - value.sdiv base * base).toInt = ((n % base.toInt.toNat : Nat) : Int) := by
  rw [toInt_index lower, sign, Int.ofNat_tmod, Int.toNat_of_nonneg (by omega)]

theorem quotient_eq : (value.sdiv base).toInt = ((n / base.toInt.toNat : Nat) : Int) := by
  rw [toInt_quotient lower, sign, Int.ofNat_tdiv, Int.toNat_of_nonneg (by omega)]

omit sign in
theorem remainder_lt (upper : base.toInt ≤ 36) : n % base.toInt.toNat < 36 :=
  (Nat.mod_lt n (by omega)).trans_le (by omega)

theorem last_iff : value.sdiv base = 0 ↔ n / base.toInt.toNat = 0 := by
  rw [quotient_eq_zero lower, ← toInt_quotient lower, quotient_eq lower sign, Int.natCast_eq_zero]

theorem itoaDigits_eq (around : Int → Byte) (upper : base.toInt ≤ 36) {turns : Nat}
    (enough : n < base.toInt.toNat ^ (turns + 1)) (str : Bytes) (ptr : Nat) :
    ∃ after, itoaDigits around base (turns + 1) value str ptr = some (after, ptr + (digitsOf base.toInt.toNat n).length,
        (digitsOf base.toInt.toNat n).map fun (digit : Nat) => (digit : Int)) ∧
      after.toList (ptr + (digitsOf base.toInt.toNat n).length) =
        str.toList ptr ++ (digitsOf base.toInt.toNat n).map digitByte := by
  induction turns generalizing value n str ptr with
  | zero =>
    have last : n / base.toInt.toNat = 0 := by
      rw [Nat.zero_add, Nat.pow_one] at enough
      exact Nat.div_eq_of_lt enough
    rw [itoaDigits, if_pos ((last_iff lower sign).mpr last), index_eq lower sign,
      digitAt_eq around (remainder_lt lower upper), digitsOf_step (by omega), if_pos last]
    exact ⟨_, rfl, Bytes.toList_update str ptr _⟩
  | succ turns ih =>
    rw [itoaDigits, index_eq lower sign, digitAt_eq around (remainder_lt lower upper), digitsOf_step (by omega)]
    have stored := Bytes.toList_update str ptr (digitByte (n % base.toInt.toNat))
    by_cases last : n / base.toInt.toNat = 0
    · rw [if_pos ((last_iff lower sign).mpr last), if_pos last]
      exact ⟨_, rfl, stored⟩
    · have fewer : n / base.toInt.toNat < base.toInt.toNat ^ (turns + 1) := by
        rw [Nat.pow_succ, Nat.mul_comm] at enough
        exact Nat.div_lt_of_lt_mul enough
      obtain ⟨after, call, content⟩ := ih (quotient_eq lower sign) fewer
        (Function.update str ptr (digitByte (n % base.toInt.toNat))) (ptr + 1)
      have length : ptr + ((digitsOf base.toInt.toNat (n / base.toInt.toNat)).length + 1) =
          ptr + 1 + (digitsOf base.toInt.toNat (n / base.toInt.toNat)).length := by omega
      rw [if_neg (last ∘ (last_iff lower sign).mp), if_neg last, call, List.length_cons, length]
      refine ⟨after, rfl, ?_⟩
      rw [content, stored, List.append_assoc, List.singleton_append, List.map_cons]

end Positive

end Division

/-- The string that is turned around, and its terminator. -/
theorem itoaReverse_terminated {str : Bytes} {ptr : Nat} {content : List Byte} (stored : str.toList ptr = content)
    (positive : 0 < ptr) :
    (itoaReverse (Function.update str ptr 0) 0 (ptr - 1)).toList (ptr + 1) = content.reverse ++ [0] := by
  obtain ⟨last, rfl⟩ := Nat.exists_eq_succ_of_ne_zero (Nat.ne_of_gt positive)
  have front : Bytes.toList (Function.update str (last + 1) 0) (last + 1) = content := by
    rw [← stored]
    apply Bytes.toList_congr
    intro place _ upper
    exact Function.update_of_ne (by omega) _ _
  rw [Nat.succ_sub_one, Bytes.toList, List.range_succ, List.map_append, List.map_singleton, itoaReverse_apply,
    if_neg (by omega), Function.update_self]
  congr 1
  exact (itoaReverse_toList _ last).trans (congrArg _ front)

/-- The call reads inside `digits` and leaves a string that denotes `value`. -/
def ItoaFaithful (around : Int → Byte) (value : Word) (str : Bytes) (base : Word) : Prop :=
  ∃ result read, itoa around value str base = some (result, read) ∧ (∀ index ∈ read, 0 ≤ index ∧ index < 36) ∧
    ∃ text : CString, result.toList (text.bytes.length + 1) = text.bytes ++ [0] ∧ Numeral.Unpadded text.bytes ∧
      Numeral.read base.toInt.toNat text.bytes = some value.toInt

section Itoa

variable {value base : Word} (lower : 2 ≤ base.toInt) (upper : base.toInt ≤ 36)

include lower upper

omit upper in
theorem enough_digits (value : Word) : value.toInt.natAbs < base.toInt.natAbs ^ maxDigits := by
  have least := value.le_toInt
  have most := value.toInt_lt
  have powers : 2 ^ 32 ≤ base.toInt.natAbs ^ 32 := Nat.pow_le_pow_left (by omega) 32
  rw [maxDigits]
  omega

theorem itoa_returns (around : Int → Byte) (value : Word) (str : Bytes) :
    ∃ result, itoa around value str base = some result := by
  obtain ⟨⟨after, ptr, read⟩, call⟩ := itoaDigits_returns lower around
    (enough_digits lower (if value.toInt < 0 ∧ base = 10 then -value else value)) str 0
  rw [itoa, if_neg (by omega)]
  dsimp only
  rw [maxDigits, call]
  exact ⟨_, rfl⟩

/-- What is behind the digit loop, when the buffer holds the numeral turned
around. -/
theorem itoaReverse_denotes {stored : Bytes} {ptr : Nat} (value : Int)
    (text : stored.toList ptr = (Numeral.write base.toInt.toNat value).reverse) :
    ∃ text : CString, (itoaReverse (Function.update stored ptr 0) 0 (ptr - 1)).toList (text.bytes.length + 1) =
      text.bytes ++ [0] ∧ Numeral.Unpadded text.bytes ∧ Numeral.read base.toInt.toNat text.bytes = some value := by
  have low : 2 ≤ base.toInt.toNat := by omega
  have high : base.toInt.toNat ≤ 36 := by omega
  have length : ptr = (Numeral.write base.toInt.toNat value).length := by
    rw [← List.length_reverse, ← text, Bytes.length_toList]
  have some : Numeral.write base.toInt.toNat value ≠ [] := by
    intro none
    have value := Numeral.read_write low high value
    rw [none] at value
    cases value
  have result := itoaReverse_terminated text (by rw [length]; exact List.length_pos_iff.mpr some)
  rw [List.reverse_reverse] at result
  refine ⟨⟨_, Numeral.write_clean low high value⟩, ?_, Numeral.write_unpadded low high value, Numeral.read_write low high value⟩
  dsimp only
  rw [← length, result]

/-- The digits of the magnitude, when the call takes off the sign. -/
theorem itoa_faithful {around : Int → Byte} {str : Bytes}
    (taken : (if value.toInt < 0 ∧ base = 10 then -value else value).toInt = (value.toInt.natAbs : Int)) :
    ItoaFaithful around value str base := by
  have same : base.toInt.natAbs = base.toInt.toNat := by omega
  have enough := enough_digits lower value
  rw [same] at enough
  obtain ⟨after, call, content⟩ := itoaDigits_eq lower taken around upper enough str 0
  change itoaDigits around base maxDigits _ str 0 = _ at call
  have within : ∀ index ∈ (Numeral.digitsOf base.toInt.toNat value.toInt.natAbs).map fun (digit : Nat) => (digit : Int),
      0 ≤ index ∧ index < 36 := by
    intro index member
    obtain ⟨digit, inside, rfl⟩ := List.mem_map.mp member
    have small := @Numeral.digitsOf_lt base.toInt.toNat (by omega) _ _ inside
    omega
  rw [Nat.zero_add] at call content
  rw [ItoaFaithful, itoa, if_neg (by omega)]
  dsimp only
  rw [call]
  by_cases negative : value.toInt < 0 ∧ base = 10
  · refine ⟨_, _, rfl, within, ?_⟩
    rw [if_pos negative]
    apply itoaReverse_denotes lower upper
    rw [Bytes.toList_update, content, Numeral.write, if_pos negative.1, List.reverse_append, List.reverse_reverse]
    rfl
  · have positive : ¬ value.toInt < 0 := by
      rw [if_neg negative] at taken
      omega
    refine ⟨_, _, rfl, within, ?_⟩
    rw [if_neg negative]
    apply itoaReverse_denotes lower upper
    rw [content, Numeral.write, if_neg positive, List.nil_append, List.reverse_reverse]
    rfl

/-- A sign that is not taken off makes an index negative. -/
theorem itoa_unfaithful {around : Int → Byte} {str : Bytes}
    (negative : (if value.toInt < 0 ∧ base = 10 then -value else value).toInt < 0) : ¬ ItoaFaithful around value str base := by
  rintro ⟨result, read, call, within, _⟩
  rw [itoa, if_neg (by omega)] at call
  dsimp only at call
  split at call
  · cases call
  · next digitsCall =>
    cases call
    obtain ⟨index, member, below⟩ := itoaDigits_negative lower negative digitsCall
    exact absurd (within index member).1 (Int.not_le.mpr below)

/-- A numeral is faithful exactly when the call takes off its sign, which it does
in base 10 and not for the least number. -/
theorem itoa_faithful_iff (around : Int → Byte) (str : Bytes) : ItoaFaithful around value str base ↔
    0 ≤ value.toInt ∨ (base = 10 ∧ value ≠ BitVec.intMin 32) := by
  constructor
  · intro faithful
    by_contra wrong
    obtain ⟨negative, sign⟩ := not_or.mp wrong
    refine itoa_unfaithful lower upper ?_ faithful
    split
    · next decimal =>
      have least : value = BitVec.intMin 32 := by
        by_contra other
        exact sign ⟨decimal.2, other⟩
      rw [least]
      decide
    · omega
  · rintro (positive | ⟨decimal, other⟩)
    · apply itoa_faithful lower upper
      rw [if_neg (by omega)]
      omega
    · apply itoa_faithful lower upper
      split
      · rw [BitVec.toInt_neg_of_ne_intMin other]
        omega
      · next positive =>
        have sign : ¬ value.toInt < 0 := fun negative => positive ⟨negative, decimal⟩
        omega

end Itoa

theorem itoa_faithful_minus_seven : ItoaFaithful (fun _ => 0) (-7) Bytes.zero 10 :=
  (itoa_faithful_iff (by decide) (by decide) (fun _ => 0) Bytes.zero).mpr (.inr (by decide))

/-- In base 16 the digit of -1 is `digits[-1]`. -/
theorem itoa_reads_before_table : ¬ ∀ (around : Int → Byte) (value base : Word) (str : Bytes),
    2 ≤ base.toInt → base.toInt ≤ 36 → ItoaFaithful around value str base := by
  intro claim
  exact itoa_unfaithful (by decide) (by decide) (by decide) (claim (fun _ => 0) (-1) 16 Bytes.zero (by decide) (by decide))

end MexOS.Lib
