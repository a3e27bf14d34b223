import MexOS.Mm.Pmm

/-! What the searches and the marking loops of the allocator do to the bits. -/

namespace MexOS.Mm.Pmm

open MexOS.Machine

/-- The search inside one word; a word of ones is skipped. -/
def scanWord (bitmap : Bitmap 32) (accept : Nat → Bool) (i : Nat) : Option Nat :=
  if bitmap i ≠ 0xFFFFFFFF then
    (List.range 32).findSome? fun j =>
      if bitmap i &&& 1#32 <<< j = 0 then
        if accept (i * 32 + j) then some (i * 32 + j) else none
      else none
  else none

/-- The common shape of the two searches: the lowest clear bit of the first
`words` words at which `accept` holds. -/
def scanBits (bitmap : Bitmap 32) (words : Nat) (accept : Nat → Bool) : Option Nat :=
  (List.range words).findSome? (scanWord bitmap accept)

/-- A clear bit at which a run of the wanted length may start. -/
def Candidate (bitmap : Bitmap 32) (accept : Nat → Bool) (bit : Nat) : Prop :=
  bitmap.test bit = false ∧ accept bit = true

private theorem test_lane (bitmap : Bitmap 32) (i : Nat) {j : Nat} (small : j < 32) :
    bitmap i &&& 1#32 <<< j = 0 ↔ bitmap.test (i * 32 + j) = false := by
  have word : (i * 32 + j) / 32 = i := by omega
  have lane : (i * 32 + j) % 32 = j := by omega
  rw [Bitmap.test, word, lane]
  exact Bitmap.and_one_shift (bitmap i) small

private theorem test_full (bitmap : Bitmap 32) (i : Nat) {j : Nat} (small : j < 32)
    (full : bitmap i = 0xFFFFFFFF) : bitmap.test (i * 32 + j) = true := by
  have word : (i * 32 + j) / 32 = i := by omega
  have lane : (i * 32 + j) % 32 = j := by omega
  have ones : (0xFFFFFFFF : BitVec 32) = BitVec.allOnes 32 := by decide
  rw [Bitmap.test, word, lane, full, ones, BitVec.getLsbD_allOnes]
  simpa using small

/-- One turn of the loop over the bits of a word. -/
private theorem lane_eq_some {bitmap : Bitmap 32} {accept : Nat → Bool} {i j bit : Nat} (small : j < 32) :
    (if bitmap i &&& 1#32 <<< j = 0 then
        if accept (i * 32 + j) then some (i * 32 + j) else none
      else none) = some bit ↔ bit = i * 32 + j ∧ Candidate bitmap accept bit := by
  simp only [test_lane bitmap i small]
  by_cases unset : bitmap.test (i * 32 + j) = false
  · by_cases taken : accept (i * 32 + j) = true
    · simp only [unset, taken, ↓reduceIte, Option.some.injEq]
      constructor
      · intro same
        subst same
        exact ⟨rfl, unset, taken⟩
      · intro ⟨same, _⟩
        exact same.symm
    · simp only [unset, taken, ↓reduceIte, Bool.false_eq_true, reduceCtorEq, false_iff]
      intro ⟨same, candidate⟩
      subst same
      exact taken candidate.2
  · simp only [unset, ↓reduceIte, reduceCtorEq, false_iff]
    intro ⟨same, candidate⟩
    subst same
    exact unset candidate.1

private theorem lane_eq_none {bitmap : Bitmap 32} {accept : Nat → Bool} {i j : Nat} (small : j < 32) :
    (if bitmap i &&& 1#32 <<< j = 0 then
        if accept (i * 32 + j) then some (i * 32 + j) else none
      else none) = none ↔ ¬ Candidate bitmap accept (i * 32 + j) := by
  rw [← not_iff_not, not_not, ← ne_eq, Option.ne_none_iff_exists']
  constructor
  · intro ⟨bit, found⟩
    obtain ⟨same, candidate⟩ := (lane_eq_some small).mp found
    exact same ▸ candidate
  · intro candidate
    exact ⟨i * 32 + j, (lane_eq_some small).mpr ⟨rfl, candidate⟩⟩

theorem scanWord_eq_some {bitmap : Bitmap 32} {accept : Nat → Bool} {i bit : Nat} :
    scanWord bitmap accept i = some bit ↔ bit / 32 = i ∧ Candidate bitmap accept bit ∧
      ∀ other, other / 32 = i → other < bit → ¬ Candidate bitmap accept other := by
  by_cases full : bitmap i = 0xFFFFFFFF
  · simp only [scanWord, full, ne_eq, not_true, ↓reduceIte, reduceCtorEq, false_iff]
    intro ⟨word, candidate, _⟩
    have set := test_full bitmap i (Nat.mod_lt bit (by decide : 0 < 32)) full
    have same : i * 32 + bit % 32 = bit := by omega
    rw [same, candidate.1] at set
    cases set
  · simp only [scanWord, ne_eq, full, not_false_eq_true, ↓reduceIte]
    rw [findSome_range_eq_some]
    constructor
    · intro ⟨j, small, found, before⟩
      obtain ⟨same, candidate⟩ := (lane_eq_some small).mp found
      refine ⟨by omega, candidate, ?_⟩
      intro other word earlier
      have lane := (lane_eq_none (by omega : other % 32 < 32)).mp (before (other % 32) (by omega))
      have split : i * 32 + other % 32 = other := by omega
      rwa [split] at lane
    · intro ⟨word, candidate, before⟩
      refine ⟨bit % 32, by omega, ?_, ?_⟩
      · exact (lane_eq_some (by omega)).mpr ⟨by omega, candidate⟩
      · intro j earlier
        exact (lane_eq_none (by omega)).mpr (before (i * 32 + j) (by omega) (by omega))

theorem scanWord_eq_none {bitmap : Bitmap 32} {accept : Nat → Bool} {i : Nat} :
    scanWord bitmap accept i = none ↔ ∀ bit, bit / 32 = i → ¬ Candidate bitmap accept bit := by
  by_cases full : bitmap i = 0xFFFFFFFF
  · simp only [scanWord, full, ne_eq, not_true, ↓reduceIte, true_iff]
    intro bit word candidate
    have set := test_full bitmap i (Nat.mod_lt bit (by decide : 0 < 32)) full
    have same : i * 32 + bit % 32 = bit := by omega
    rw [same, candidate.1] at set
    cases set
  · simp only [scanWord, ne_eq, full, not_false_eq_true, ↓reduceIte]
    rw [findSome_range_eq_none]
    constructor
    · intro missing bit word
      have lane := (lane_eq_none (by omega : bit % 32 < 32)).mp (missing (bit % 32) (by omega))
      have split : i * 32 + bit % 32 = bit := by omega
      rwa [split] at lane
    · intro absent j small
      exact (lane_eq_none small).mpr (absent (i * 32 + j) (by omega))

/-- The search finds the lowest candidate of the searched words. -/
theorem scanBits_eq_some {bitmap : Bitmap 32} {words : Nat} {accept : Nat → Bool} {bit : Nat} :
    scanBits bitmap words accept = some bit ↔ bit < 32 * words ∧ Candidate bitmap accept bit ∧
      ∀ other < bit, ¬ Candidate bitmap accept other := by
  rw [scanBits, findSome_range_eq_some]
  constructor
  · intro ⟨i, bound, found, before⟩
    obtain ⟨word, candidate, lower⟩ := scanWord_eq_some.mp found
    refine ⟨by omega, candidate, ?_⟩
    intro other earlier
    by_cases same : other / 32 = i
    · exact lower other same earlier
    · exact scanWord_eq_none.mp (before (other / 32) (by omega)) other rfl
  · intro ⟨bound, candidate, lower⟩
    refine ⟨bit / 32, by omega, ?_, ?_⟩
    · exact scanWord_eq_some.mpr ⟨rfl, candidate, fun other _ earlier => lower other earlier⟩
    · intro i earlier
      exact scanWord_eq_none.mpr fun other word => lower other (by omega)

theorem scanBits_eq_none {bitmap : Bitmap 32} {words : Nat} {accept : Nat → Bool} :
    scanBits bitmap words accept = none ↔ ∀ bit < 32 * words, ¬ Candidate bitmap accept bit := by
  rw [scanBits, findSome_range_eq_none]
  constructor
  · intro missing bit bound
    exact scanWord_eq_none.mp (missing (bit / 32) (by omega)) bit rfl
  · intro absent i bound
    exact scanWord_eq_none.mpr fun bit word => absent bit (by omega)

theorem bitmapTest_eq (pmm : Pmm) (bit : Word) : pmm.bitmapTest bit = pmm.bitmap.test bit.toNat := by
  have lane := Bitmap.and_one_shift (pmm.bitmap (bit.toNat / 32)) (Nat.mod_lt bit.toNat (by decide : 0 < 32))
  rw [bitmapTest, Bitmap.test]
  cases set : (pmm.bitmap (bit.toNat / 32)).getLsbD (bit.toNat % 32) with
  | false => simpa using lane.mpr set
  | true =>
    have nonzero : ¬ pmm.bitmap (bit.toNat / 32) &&& 1#32 <<< (bit.toNat % 32) = 0#32 := by
      rw [lane, set]
      simp
    simpa using nonzero

theorem bitmapFirstFree_eq (pmm : Pmm) : pmm.bitmapFirstFree =
    scanBits pmm.bitmap (pmm.maxBlocks.toNat / 32) fun _ => true := by
  simp only [bitmapFirstFree, scanBits]
  congr 1

theorem bitmapFirstFree_eq_some {pmm : Pmm} {frame : Nat} : pmm.bitmapFirstFree = some frame ↔
    frame < 32 * (pmm.maxBlocks.toNat / 32) ∧ pmm.bitmap.test frame = false ∧
      ∀ bit < frame, pmm.bitmap.test bit = true := by
  rw [bitmapFirstFree_eq, scanBits_eq_some]
  simp [Candidate]

theorem bitmapFirstFree_eq_none {pmm : Pmm} : pmm.bitmapFirstFree = none ↔
    ∀ bit < 32 * (pmm.maxBlocks.toNat / 32), pmm.bitmap.test bit = true := by
  rw [bitmapFirstFree_eq, scanBits_eq_none]
  simp [Candidate]

/-- The inner counter reaches the wanted size only if no bit of the run is
set, whatever memory the run extends into. -/
theorem countFree_iff {pmm : Pmm} {start size : Word} {turns : Nat} {k free : Word}
    (sum : k.toNat + turns = size.toNat) (below : free.toNat ≤ k.toNat)
    (short : free.toNat < size.toNat) :
    pmm.countFree start size turns k free = true ↔ free = k ∧
      ∀ i < turns, pmm.bitmap.test (start + k + BitVec.ofNat 32 i).toNat = false := by
  induction turns generalizing k free with
  | zero =>
    simp only [countFree, Bool.false_eq_true, false_iff]
    intro ⟨same, _⟩
    subst same
    omega
  | succ turns ih =>
    have limit := size.isLt
    have next : (k + 1).toNat = k.toNat + 1 := by bv_omega
    have here : start + k + BitVec.ofNat 32 0 = start + k := by bv_omega
    have later (i : Nat) : start + (k + 1) + BitVec.ofNat 32 i = start + k + BitVec.ofNat 32 (i + 1) := by
      bv_omega
    have shifted : (∀ i < turns + 1, pmm.bitmap.test (start + k + BitVec.ofNat 32 i).toNat = false) ↔
        pmm.bitmap.test (start + k).toNat = false ∧
          ∀ i < turns, pmm.bitmap.test (start + (k + 1) + BitVec.ofNat 32 i).toNat = false := by
      rw [Nat.forall_lt_succ_left]
      simp only [here, later]
    rw [countFree, bitmapTest_eq, shifted]
    cases set : pmm.bitmap.test (start + k).toNat with
    | true =>
      have open_ : free ≠ size := fun same => by rw [same] at short; omega
      have rest := @ih (k + 1) free (by omega) (by omega) short
      have behind : free ≠ k + 1 := fun same => by
        have value := congrArg BitVec.toNat same
        omega
      simp only [↓reduceIte, open_, rest, behind, false_and, Bool.true_eq_false, and_false]
    | false =>
      have counted : (free + 1).toNat = free.toNat + 1 := by bv_omega
      simp only [Bool.false_eq_true, ↓reduceIte, true_and]
      by_cases done : free + 1 = size
      · have value := congrArg BitVec.toNat done
        have none_left : turns = 0 := by omega
        have level : free = k := BitVec.eq_of_toNat_eq (by omega)
        rw [if_pos done, none_left, level]
        simp
      · have unequal : (free + 1).toNat ≠ size.toNat := fun same => done (BitVec.eq_of_toNat_eq same)
        have rest := @ih (k + 1) (free + 1) (by omega) (by omega) (by omega)
        have level : free + 1 = k + 1 ↔ free = k := by
          constructor
          · intro same
            have value := congrArg BitVec.toNat same
            exact BitVec.eq_of_toNat_eq (by omega)
          · intro same
            rw [same]
        simp only [done, ↓reduceIte, rest, level]

end MexOS.Mm.Pmm
