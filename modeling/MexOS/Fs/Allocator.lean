import MexOS.Fs.Diskfs

/-! The allocators over the two bitmaps, with the totals that `diskfs_format`
sets. -/

namespace MexOS.Fs

open MexOS.Machine

namespace Superblock

theorem setFreeBlocks_totals (superblock : Superblock) (value : Word) :
    (superblock.setFreeBlocks value).totalBlocks = superblock.totalBlocks ∧
      (superblock.setFreeBlocks value).totalInodes = superblock.totalInodes :=
  ⟨Bytes.word_setWord_of_apart (by decide), Bytes.word_setWord_of_apart (by decide)⟩

theorem setFreeInodes_totals (superblock : Superblock) (value : Word) :
    (superblock.setFreeInodes value).totalBlocks = superblock.totalBlocks ∧
      (superblock.setFreeInodes value).totalInodes = superblock.totalInodes :=
  ⟨Bytes.word_setWord_of_apart (by decide), Bytes.word_setWord_of_apart (by decide)⟩

theorem setFreeBlocks_counters (superblock : Superblock) (value : Word) :
    (superblock.setFreeBlocks value).freeBlocks = value ∧
      (superblock.setFreeBlocks value).freeInodes = superblock.freeInodes :=
  ⟨Bytes.word_setWord _ _ _, Bytes.word_setWord_of_apart (by decide)⟩

theorem setFreeInodes_counters (superblock : Superblock) (value : Word) :
    (superblock.setFreeInodes value).freeInodes = value ∧
      (superblock.setFreeInodes value).freeBlocks = superblock.freeBlocks :=
  ⟨Bytes.word_setWord _ _ _, Bytes.word_setWord_of_apart (by decide)⟩

end Superblock

namespace Diskfs

theorem bitmapTest_eq (bitmap : Bitmap 8) (bit : Nat) : bitmapTest bitmap bit = bitmap.test bit := by
  have small : bit % 8 < 8 := Nat.mod_lt _ (by decide)
  have masked := Bitmap.and_one_shift (bitmap (bit / 8)) small
  unfold bitmapTest Bitmap.test
  cases value : (bitmap (bit / 8)).getLsbD (bit % 8) with
  | false => simpa using masked.mpr value
  | true =>
    rw [bne_iff_ne]
    intro zero
    have unset := masked.mp zero
    rw [value] at unset
    cases unset

/-- The scan finds the first free bit of its range. Without one it answers -1 if
it stays inside the bitmap, and -1 or nothing otherwise. -/
theorem bitmapFindFrom_cases (bitmap : Bitmap 8) (turns i : Nat) :
    (∃ bit : Nat, i ≤ bit ∧ bit < min (i + turns) maxBlocks ∧ bitmapFindFrom bitmap turns i = some (bit : Int) ∧
      bitmap.test bit = false ∧ ∀ earlier, i ≤ earlier → earlier < bit → bitmap.test earlier = true) ∨
    (∀ bit, i ≤ bit → bit < min (i + turns) maxBlocks → bitmap.test bit = true) ∧
      (∀ found, bitmapFindFrom bitmap turns i = some found → found = -1) ∧
      (i + turns ≤ maxBlocks → bitmapFindFrom bitmap turns i = some (-1)) := by
  induction turns generalizing i with
  | zero =>
    refine .inr ⟨fun bit lower upper => by omega, ?_, fun _ => rfl⟩
    intro found call
    cases call
    rfl
  | succ turns ih =>
    rw [bitmapFindFrom, bitmapTest_eq]
    by_cases past : maxBlocks ≤ i
    · rw [if_pos past]
      refine .inr ⟨fun bit lower upper => by omega, ?_, fun inside => by omega⟩
      intro found call
      cases call
    rw [if_neg past]
    cases here : bitmap.test i with
    | false => exact .inl ⟨i, Nat.le_refl _, by omega, by simp, here, fun earlier lower upper => by omega⟩
    | true =>
      have extend {bit : Nat} (rest : i + 1 ≤ bit → bitmap.test bit = true) (lower : i ≤ bit) : bitmap.test bit = true := by
        by_cases same : bit = i
        · rw [same, here]
        · exact rest (by omega)
      rw [if_pos rfl]
      rcases ih (i + 1) with ⟨bit, lower, upper, call, free, before⟩ | ⟨full, call, inside⟩
      · exact .inl ⟨bit, by omega, by omega, call, free,
          fun earlier first last => extend (fun after => before earlier after last) first⟩
      · exact .inr ⟨fun bit lower upper => extend (fun after => full bit after (by omega)) lower, call,
          fun range => inside (by omega)⟩

/-- The scan answers with a free bit. -/
theorem bitmapFindFrom_unset {bitmap : Bitmap 8} {turns i : Nat} {found : Int}
    (call : bitmapFindFrom bitmap turns i = some found) (positive : 0 ≤ found) :
    found < maxBlocks ∧ bitmap.test found.toNat = false := by
  rcases bitmapFindFrom_cases bitmap turns i with ⟨bit, _, upper, result, free, _⟩ | ⟨_, full, _⟩
  · obtain rfl : found = bit := Option.some.inj (call.symm.trans result)
    exact ⟨by omega, by rwa [Int.toNat_natCast]⟩
  · have missing := full found call
    omega

theorem bitmapFindFrom_sign {bitmap : Bitmap 8} {turns i : Nat} {found : Int}
    (call : bitmapFindFrom bitmap turns i = some found) : found < 0 ↔ found = -1 := by
  rcases bitmapFindFrom_cases bitmap turns i with ⟨bit, _, _, result, _, _⟩ | ⟨_, full, _⟩
  · obtain rfl : found = bit := Option.some.inj (call.symm.trans result)
    omega
  · have missing := full found call
    omega

theorem bitmapFindFree_spec (bitmap : Bitmap 8) {maxBits : Word} (inside : maxBits.toNat ≤ maxBlocks) :
    (bitmapFindFree bitmap maxBits = some (-1) ∧ ∀ bit < maxBits.toNat, bitmap.test bit = true) ∨
      ∃ bit : Nat, bit < maxBits.toNat ∧ bitmapFindFree bitmap maxBits = some (bit : Int) ∧
        bitmap.test bit = false ∧ ∀ earlier < bit, bitmap.test earlier = true := by
  have scan := bitmapFindFrom_cases bitmap maxBits.toNat 0
  rw [Nat.zero_add, Nat.min_eq_left inside] at scan
  rcases scan with ⟨bit, _, upper, result, unset, before⟩ | ⟨full, _, result⟩
  · exact .inr ⟨bit, upper, result, unset, fun earlier upper => before earlier (Nat.zero_le _) upper⟩
  · exact .inl ⟨result inside, fun bit upper => full bit (Nat.zero_le _) upper⟩

variable {fs : Diskfs}

/-- `fs` with one more block taken. -/
def blockTaken (fs : Diskfs) (block : Nat) : Diskfs :=
  { fs with
    blockBitmap := fs.blockBitmap.set block
    superblock := fs.superblock.setFreeBlocks (fs.superblock.freeBlocks - 1) }

def inodeTaken (fs : Diskfs) (ino : Nat) : Diskfs :=
  { fs with
    inodeBitmap := fs.inodeBitmap.set ino
    superblock := fs.superblock.setFreeInodes (fs.superblock.freeInodes - 1) }

/-- `fs` with a block given back. -/
def blockFreed (fs : Diskfs) (block : Nat) : Diskfs :=
  { fs with
    blockBitmap := fs.blockBitmap.clear block
    superblock := fs.superblock.setFreeBlocks (fs.superblock.freeBlocks + 1) }

def inodeFreed (fs : Diskfs) (ino : Nat) : Diskfs :=
  { fs with
    inodeBitmap := fs.inodeBitmap.clear ino
    superblock := fs.superblock.setFreeInodes (fs.superblock.freeInodes + 1) }

theorem freeBlock_eq (totals : fs.superblock.totalBlocks = 65536) {block : Word} (small : block.toNat < maxBlocks) :
    fs.freeBlock block = some (fs.blockFreed block.toNat) := by
  have amount : (65536 : Word).toNat = maxBlocks := rfl
  have inside : ¬ block ≥ fs.superblock.totalBlocks := by
    rw [totals, ge_iff_le, BitVec.le_def, amount]
    omega
  rw [freeBlock, if_neg inside, if_neg (by omega)]
  rfl

theorem freeInode_eq (totals : fs.superblock.totalInodes = 512) {ino : Word} (valid : ino.toNat < maxInodes) :
    fs.freeInode ino = some (fs.inodeFreed ino.toNat) := by
  have limit : ino.toNat < 512 := valid
  have amount : (512 : Word).toNat = 512 := rfl
  have inside : ¬ ino ≥ fs.superblock.totalInodes := by
    rw [totals, ge_iff_le, BitVec.le_def, amount]
    omega
  rw [freeInode, if_neg inside, if_neg (by rw [maxBlocks]; omega)]
  rfl

theorem allocBlock_spec (totals : fs.superblock.totalBlocks = 65536) :
    ((∀ block < maxBlocks, fs.blockBitmap.test block = true) ∧ fs.allocBlock = some (-1, fs)) ∨
      ∃ block : Nat, block < maxBlocks ∧ fs.blockBitmap.test block = false ∧
        (∀ earlier < block, fs.blockBitmap.test earlier = true) ∧
        fs.allocBlock = some ((block : Int), fs.blockTaken block) := by
  have amount : (65536 : Word).toNat = maxBlocks := rfl
  rw [allocBlock, totals]
  rcases @bitmapFindFree_spec fs.blockBitmap 65536 (by rw [amount]) with ⟨result, full⟩ | ⟨block, upper, result, unset, before⟩
  · left
    refine ⟨amount ▸ full, ?_⟩
    rw [result]
    rfl
  · right
    refine ⟨block, amount ▸ upper, unset, before, ?_⟩
    rw [result]
    simp [blockTaken]

theorem allocInode_spec (totals : fs.superblock.totalInodes = 512) :
    ((∀ ino < maxInodes, fs.inodeBitmap.test ino = true) ∧ fs.allocInode = some (-1, fs)) ∨
      ∃ ino : Nat, ino < maxInodes ∧ fs.inodeBitmap.test ino = false ∧
        (∀ earlier < ino, fs.inodeBitmap.test earlier = true) ∧
        fs.allocInode = some ((ino : Int), fs.inodeTaken ino) := by
  have amount : (512 : Word).toNat = maxInodes := rfl
  rw [allocInode, totals]
  rcases @bitmapFindFree_spec fs.inodeBitmap 512 (by rw [amount]; decide) with ⟨result, full⟩ | ⟨ino, upper, result, unset, before⟩
  · left
    refine ⟨amount ▸ full, ?_⟩
    rw [result]
    rfl
  · right
    refine ⟨ino, amount ▸ upper, unset, before, ?_⟩
    rw [result]
    simp [inodeTaken]

end Diskfs

end MexOS.Fs
