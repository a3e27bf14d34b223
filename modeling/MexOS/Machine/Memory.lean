import Mathlib.Data.Nat.Bitwise
import Mathlib.Logic.Function.Basic

/-! Byte-addressed memory behind 32-bit pointers, with little-endian words.
Nothing here knows which program runs on the machine. -/

namespace MexOS.Machine

abbrev Byte := BitVec 8
abbrev Word := BitVec 32
abbrev Memory := Word → Byte

/-- The four bytes at an address, least significant first. -/
def loadWord (memory : Memory) (address : Word) : Word :=
  memory (address + 3) ++ memory (address + 2) ++ memory (address + 1) ++ memory address

def storeByte (memory : Memory) (address : Word) (value : Byte) : Memory :=
  Function.update memory address value

def storeWord (memory : Memory) (address value : Word) : Memory := fun place =>
  if place = address then value.extractLsb' 0 8
  else if place = address + 1 then value.extractLsb' 8 8
  else if place = address + 2 then value.extractLsb' 16 8
  else if place = address + 3 then value.extractLsb' 24 8
  else memory place

/-- Two four-byte cells share no byte, also when one wraps at the top. -/
def Apart (first second : Word) : Prop := 4 ≤ (first - second).toNat ∧ 4 ≤ (second - first).toNat

instance : Decidable (Apart first second) := inferInstanceAs (Decidable (_ ∧ _))

theorem Apart.symm (apart : Apart first second) : Apart second first := ⟨apart.2, apart.1⟩

theorem Apart.ne (apart : Apart first second) : first ≠ second := by
  rintro rfl
  simp [Apart] at apart

theorem toNat_append_byte {width : Nat} (high : BitVec width) (low : Byte) : (high ++ low).toNat = high.toNat * 256 + low.toNat := by
  rw [BitVec.toNat_append, ← Nat.shiftLeft_add_eq_or_of_lt low.isLt, Nat.shiftLeft_eq]

theorem toNat_lane (value : Word) (lane : Nat) : (value.extractLsb' (8 * lane) 8).toNat = value.toNat / 256 ^ lane % 256 := by
  rw [BitVec.extractLsb'_toNat, Nat.shiftRight_eq_div_pow, Nat.pow_mul]

/-- The bytes of a word make it up. -/
theorem append_lanes (value : Word) :
    value.extractLsb' 24 8 ++ value.extractLsb' 16 8 ++ value.extractLsb' 8 8 ++ value.extractLsb' 0 8 = value := by
  apply BitVec.eq_of_toNat_eq
  rw [toNat_append_byte, toNat_append_byte, toNat_append_byte]
  have first : (value.extractLsb' 0 8).toNat = _ := toNat_lane value 0
  have second : (value.extractLsb' 8 8).toNat = _ := toNat_lane value 1
  have third : (value.extractLsb' 16 8).toNat = _ := toNat_lane value 2
  have fourth : (value.extractLsb' 24 8).toNat = _ := toNat_lane value 3
  have bound := value.isLt
  omega

/-- A word by its four bytes. -/
theorem loadWord_of_lanes {memory : Memory} {place value : Word}
    (lane : ∀ k < 4, memory (place + BitVec.ofNat 32 k) = value.extractLsb' (8 * k) 8) : loadWord memory place = value := by
  have zero := lane 0 (by decide)
  rw [BitVec.add_zero] at zero
  have three := lane 3 (by decide)
  have two := lane 2 (by decide)
  have one := lane 1 (by decide)
  change memory (place + BitVec.ofNat 32 3) ++ memory (place + BitVec.ofNat 32 2) ++ memory (place + BitVec.ofNat 32 1) ++
    memory place = value
  rw [zero, one, two, three]
  exact append_lanes value

@[simp] theorem loadWord_storeWord_self (memory : Memory) (address value : Word) :
    loadWord (storeWord memory address value) address = value := by
  have one : address + 1 ≠ address := by bv_omega
  have two : address + 2 ≠ address ∧ address + 2 ≠ address + 1 := by constructor <;> bv_omega
  have three : address + 3 ≠ address ∧ address + 3 ≠ address + 1 ∧ address + 3 ≠ address + 2 := by
    refine ⟨?_, ?_, ?_⟩ <;> bv_omega
  simp only [loadWord, storeWord, one, two, three, ↓reduceIte]
  exact append_lanes value

theorem setWidth_loadWord (memory : Memory) (address : Word) : (loadWord memory address).setWidth 8 = memory address := by
  unfold loadWord
  exact BitVec.setWidth_append_eq_right

/-- Each byte of a word can be read off it. -/
theorem loadWord_lane (memory : Memory) (address : Word) {lane : Nat} (small : lane < 4) :
    memory (address + BitVec.ofNat 32 lane) = (loadWord memory address).extractLsb' (8 * lane) 8 := by
  have lanes : lane = 0 ∨ lane = 1 ∨ lane = 2 ∨ lane = 3 := by omega
  have bytes (place : Word) : (memory place).toNat < 256 := (memory place).isLt
  have first := bytes address
  have second := bytes (address + 1)
  have third := bytes (address + 2)
  have fourth := bytes (address + 3)
  apply BitVec.eq_of_toNat_eq
  rw [toNat_lane, loadWord, toNat_append_byte, toNat_append_byte, toNat_append_byte]
  rcases lanes with rfl | rfl | rfl | rfl
  · rw [BitVec.ofNat_eq_ofNat, BitVec.add_zero]
    omega
  · change (memory (address + 1)).toNat = _
    omega
  · change (memory (address + 2)).toNat = _
    omega
  · change (memory (address + 3)).toNat = _
    omega
theorem storeWord_frame {memory : Memory} {address value place : Word}
    (outside : 4 ≤ (place - address).toNat) : storeWord memory address value place = memory place := by
  have zero : place ≠ address := by rintro rfl; simp at outside
  have one : place ≠ address + 1 := by rintro rfl; bv_omega
  have two : place ≠ address + 2 := by rintro rfl; bv_omega
  have three : place ≠ address + 3 := by rintro rfl; bv_omega
  simp only [storeWord, zero, one, two, three, ↓reduceIte]

theorem loadWord_congr {first second : Memory} {address : Word}
    (agree : ∀ lane : Word, lane.toNat < 4 → first (address + lane) = second (address + lane)) :
    loadWord first address = loadWord second address := by
  have zero := agree 0#32 (by decide)
  rw [BitVec.add_zero] at zero
  simp only [loadWord, zero, agree 1 (by decide), agree 2 (by decide), agree 3 (by decide)]

theorem loadWord_storeWord_apart {memory : Memory} {address place value : Word}
    (apart : Apart place address) :
    loadWord (storeWord memory address value) place = loadWord memory place := by
  apply loadWord_congr
  intro lane small
  apply storeWord_frame
  have := apart.1
  have := apart.2
  bv_omega

theorem apart_offsets {base first second : Word} (apart : Apart first second) :
    Apart (base + first) (base + second) := by
  unfold Apart at *
  rwa [show base + first - (base + second) = first - second by bv_omega,
    show base + second - (base + first) = second - first by bv_omega]

/-- Store a list of cells from left to right. -/
def storeWords (memory : Memory) (cells : List (Word × Word)) : Memory :=
  cells.foldl (fun memory cell => storeWord memory cell.1 cell.2) memory

theorem loadWord_storeWords_apart (memory : Memory) {place : Word} {cells : List (Word × Word)}
    (apart : ∀ cell ∈ cells, Apart place cell.1) :
    loadWord (storeWords memory cells) place = loadWord memory place := by
  induction cells generalizing memory with
  | nil => rfl
  | cons cell cells ih =>
    have rest : loadWord (storeWords (storeWord memory cell.1 cell.2) cells) place =
        loadWord (storeWord memory cell.1 cell.2) place :=
      ih _ fun other member => apart other (List.mem_cons_of_mem _ member)
    exact rest.trans (loadWord_storeWord_apart (apart cell List.mem_cons_self))

/-- A stored word is read back when every other store is apart from it. -/
theorem loadWord_storeWords_mem (memory : Memory) {place value : Word} {cells : List (Word × Word)}
    (written : (place, value) ∈ cells)
    (others : ∀ cell ∈ cells, cell = (place, value) ∨ Apart place cell.1) :
    loadWord (storeWords memory cells) place = value := by
  induction cells generalizing memory with
  | nil => simp at written
  | cons cell cells ih =>
    have othersRest : ∀ other ∈ cells, other = (place, value) ∨ Apart place other.1 :=
      fun other member => others other (List.mem_cons_of_mem _ member)
    by_cases later : (place, value) ∈ cells
    · exact ih (storeWord memory cell.1 cell.2) later othersRest
    · have here : cell = (place, value) := by
        rcases List.mem_cons.mp written with same | member
        · exact same.symm
        · exact absurd member later
      have apart : ∀ other ∈ cells, Apart place other.1 := by
        intro other member
        rcases othersRest other member with same | apart
        · exact absurd (same ▸ member) later
        · exact apart
      subst cell
      exact (loadWord_storeWords_apart (storeWord memory place value) apart).trans
        (loadWord_storeWord_self memory place value)

section Numbers

/-! Addresses given as numbers below 2^32. -/

variable {memory other : Memory} {address place : Nat}

theorem storeByte_outside {value : Byte} (small : place < 2 ^ 32) (bounded : address < 2 ^ 32)
    (different : place ≠ address) :
    storeByte memory (BitVec.ofNat 32 address) value (BitVec.ofNat 32 place) = memory (BitVec.ofNat 32 place) := by
  have apart : BitVec.ofNat 32 place ≠ BitVec.ofNat 32 address := by
    intro same
    have values := congrArg BitVec.toNat same
    simp only [BitVec.toNat_ofNat] at values
    omega
  exact Function.update_of_ne apart _ _

theorem storeWord_outside {value : Word} (small : place < 2 ^ 32) (bounded : address + 4 ≤ 2 ^ 32)
    (outside : place < address ∨ address + 4 ≤ place) :
    storeWord memory (BitVec.ofNat 32 address) value (BitVec.ofNat 32 place) = memory (BitVec.ofNat 32 place) := by
  apply storeWord_frame
  rw [BitVec.toNat_sub, BitVec.toNat_ofNat, BitVec.toNat_ofNat]
  omega

/-- Two memories hold the same bytes from `first` up to `last`. -/
def SameBytes (memory other : Memory) (first last : Nat) : Prop :=
  ∀ place, first ≤ place → place < last → other (BitVec.ofNat 32 place) = memory (BitVec.ofNat 32 place)

theorem loadWord_of_same (same : SameBytes memory other address (address + 4)) :
    loadWord other (BitVec.ofNat 32 address) = loadWord memory (BitVec.ofNat 32 address) := by
  have lane (offset : Nat) (small : offset < 4) :
      other (BitVec.ofNat 32 address + BitVec.ofNat 32 offset) =
        memory (BitVec.ofNat 32 address + BitVec.ofNat 32 offset) := by
    rw [← BitVec.ofNat_add]
    exact same (address + offset) (by omega) (by omega)
  apply loadWord_congr
  intro offset small
  have numeral : offset = BitVec.ofNat 32 offset.toNat := by simp
  rw [numeral]
  exact lane offset.toNat small

end Numbers

/-- Clearing the low bits rounds down to a multiple of a power of two. -/
theorem toNat_and_not_mask (value : Word) (bits : Nat) :
    (value &&& ~~~BitVec.ofNat 32 (2 ^ bits - 1)).toNat = value.toNat / 2 ^ bits * 2 ^ bits := by
  have shifted : value &&& ~~~BitVec.ofNat 32 (2 ^ bits - 1) = (value >>> bits) <<< bits := by
    apply BitVec.eq_of_getLsbD_eq
    intro index bound
    simp only [BitVec.getLsbD_and, BitVec.getLsbD_not, BitVec.getLsbD_shiftLeft,
      BitVec.getLsbD_ushiftRight, BitVec.getLsbD_ofNat, Nat.testBit_two_pow_sub_one]
    by_cases low : index < bits
    · simp [low, bound]
    · simp [low, show bits + (index - bits) = index by omega, bound]
  have small : value.toNat / 2 ^ bits * 2 ^ bits < 2 ^ 32 :=
    Nat.lt_of_le_of_lt (Nat.div_mul_le_self _ _) value.isLt
  rw [shifted, BitVec.toNat_shiftLeft, BitVec.toNat_ushiftRight, Nat.shiftRight_eq_div_pow,
    Nat.shiftLeft_eq, Nat.mod_eq_of_lt small]

end MexOS.Machine
