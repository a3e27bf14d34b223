import MexOS.Fs.EndOfFile
import MexOS.Fs.InodeBitmap
import Mathlib.Algebra.Order.Interval.Finset.SuccPred
import Mathlib.Data.Nat.SuccPred
import Mathlib.Order.Interval.Finset.Nat

/-! What a `diskfs_write` or `diskfs_create` that fails leaves of the bitmaps
and of the counts of what is free. -/

namespace MexOS.Fs.Diskfs

open MexOS.Machine

/-- The bits among which `alloc_block` can find one. -/
def blockRange (fs : Diskfs) : Nat := min fs.superblock.totalBlocks.toNat maxBlocks

def spareBlocks (fs : Diskfs) : Nat := fs.blockRange - fs.blockBitmap.population fs.blockRange

section Claim

variable {fs mid : Diskfs} {inode new : Inode} {index : Nat}

/-- A turn keeps its block, or gets one of those to spare; without any
`claimBlock` changes nothing. -/
theorem claimBlock_cases (fs : Diskfs) (inode : Inode) (index : Nat) :
    (∃ mid new, Claimed fs inode index mid new ∧ fs.claimBlock inode index = some (some new, mid) ∧
      mid.spareBlocks + (if inode.block index = 0 then 1 else 0) = fs.spareBlocks) ∨
    (inode.block index = 0 ∧ fs.spareBlocks = 0 ∧
      ∀ result, fs.claimBlock inode index = some result → result = (none, fs)) := by
  by_cases hole : inode.block index = 0
  · rw [claimBlock, if_pos hole, if_pos hole, allocBlock, bitmapFindFree]
    have scan := bitmapFindFrom_cases fs.blockBitmap fs.superblock.totalBlocks.toNat 0
    rw [Nat.zero_add] at scan
    rcases scan with ⟨block, _, inside, call, free, before⟩ | ⟨full, call, _⟩
    · have more := Bitmap.population_set (by decide) inside free
      have limit := (fs.blockBitmap.set block).population_le fs.blockRange
      have range : (fs.blockTaken block).blockRange = fs.blockRange := by
        have total : (fs.blockTaken block).superblock.totalBlocks = fs.superblock.totalBlocks :=
          Bytes.word_setWord_of_apart (by decide)
        rw [blockRange, blockRange, total]
      refine .inl ⟨_, _, .fresh block hole (by omega) free fun earlier upper => before earlier (Nat.zero_le _) upper, ?_, ?_⟩
      · have found : ¬ (block : Int) < 0 := by omega
        rw [call]
        simp only [Option.bind_eq_bind, Option.bind_some, found, ↓reduceIte, Option.pure_def]
        rfl
      · rw [spareBlocks, spareBlocks, range]
        change fs.blockRange - (fs.blockBitmap.set block).population fs.blockRange + 1 = _
        change (fs.blockBitmap.set block).population fs.blockRange = _ at more
        change _ = fs.blockBitmap.population fs.blockRange + 1 at more
        omega
    · refine .inr ⟨hole, ?_, ?_⟩
      · have all := (Bitmap.population_eq_iff fs.blockBitmap fs.blockRange).mpr fun bit upper => full bit (Nat.zero_le _) upper
        rw [spareBlocks]
        omega
      · intro result
        cases found : bitmapFindFrom fs.blockBitmap fs.superblock.totalBlocks.toNat 0 with
        | none =>
          intro claim
          cases claim
        | some bit =>
          obtain rfl := call bit found
          intro claim
          cases claim
          rfl
  · refine .inl ⟨fs, inode, .kept hole, ?_, ?_⟩
    · rw [claimBlock, if_neg hole]
    · rw [if_neg hole, Nat.add_zero]

theorem Claimed.bitmap (claimed : Claimed fs inode index mid new) {bit : Nat} (present : fs.blockBitmap.test bit = true) :
    mid.blockBitmap.test bit = true := by
  cases claimed with
  | kept _ => exact present
  | fresh block _ _ _ _ =>
    change (fs.blockBitmap.set block).test bit = true
    rw [Bitmap.test_set _ (by decide), present, Bool.or_true]

end Claim

/-- The transfers of the turn for a block when the bytes from `first` up to
`last` are written: a block that is not written as a whole is read before. -/
def turnTransfers (first last index : Nat) : Nat := if 512 * index < first ∨ last < 512 * (index + 1) then 2 else 1

/-- The transfers of the turns in front of it. -/
def transfersBefore (first index : Nat) : Nat :=
  index - first / 512 + if first % 512 ≠ 0 ∧ first / 512 < index then 1 else 0

def TurnWorks (fs : Diskfs) (first last index : Nat) : Prop :=
  fs.ata.driveExists fs.mountedDrive = true ∧ fs.ata.Works (transfersBefore first index) (turnTransfers first last index)

/-- How many of the pointers are zero. -/
def holes (inode : Inode) (lower upper : Nat) : Nat :=
  ((Finset.Icc lower upper).filter fun index => inode.block index = 0).card

/-- The turn for the block `failing` is the first one with a transfer that
fails, and there are blocks for all zero pointers up to it. -/
structure FailsAt (fs : Diskfs) (inode : Inode) (first last failing : Nat) : Prop where
  lower : first / 512 ≤ failing
  upper : failing < directBlocks
  covered : first < last ∧ 512 * failing < last
  earlier : ∀ index, first / 512 ≤ index → index < failing → fs.TurnWorks first last index
  fails : ¬ fs.TurnWorks first last failing
  room : holes inode (first / 512) failing ≤ fs.spareBlocks

section Store

variable {fs : Diskfs} {drive : Byte}

/-- The next transfer works. -/
def Ready (ata : Ata) (drive : Byte) : Prop := ata.driveExists drive = true ∧ ata.outcome ata.transfers = none

theorem Ready.readSectors {ata : Ata} (ready : Ready ata drive) (lba : Word) (buffer : Bytes) :
    ata.readSectors drive lba 1 buffer = (0, ata.load drive lba 1 buffer, ata.tick) := by
  rw [Ata.readSectors_present ready.1 Nat.one_ne_zero, if_pos ready.2, Ata.moved_of_works ready.2]

theorem Ready.writeSectors {ata : Ata} (ready : Ready ata drive) (lba : Word) (buffer : Bytes) :
    ata.writeSectors drive lba 1 buffer = (0, (ata.store drive lba 1 buffer).tick) := by
  rw [Ata.writeSectors_present ready.1 Nat.one_ne_zero, if_pos ready.2, Ata.moved_of_works ready.2]

theorem readSectors_fails {ata : Ata} (fails : ¬ Ready ata drive) (lba : Word) (buffer : Bytes) :
    (ata.readSectors drive lba 1 buffer).1 = -1 := by
  by_cases present : ata.driveExists drive = true
  · rw [Ata.readSectors_present present Nat.one_ne_zero]
    exact if_neg fun works => fails ⟨present, works⟩
  · rw [Ata.readSectors, if_pos present]

theorem writeSectors_fails {ata : Ata} (fails : ¬ Ready ata drive) (lba : Word) (buffer : Bytes) :
    (ata.writeSectors drive lba 1 buffer).1 = -1 := by
  by_cases present : ata.driveExists drive = true
  · rw [Ata.writeSectors_present present Nat.one_ne_zero]
    exact if_neg fun works => fails ⟨present, works⟩
  · rw [Ata.writeSectors, if_pos present]

theorem works_one {ata : Ata} : ata.driveExists drive = true ∧ ata.Works 0 1 ↔ Ready ata drive := by
  refine and_congr_right fun _ => ⟨fun works => works 0 (by decide), ?_⟩
  rintro one i inside
  obtain rfl : i = 0 := by omega
  exact one

theorem works_two {ata : Ata} : ata.driveExists drive = true ∧ ata.Works 0 2 ↔ Ready ata drive ∧ Ready ata.tick drive := by
  constructor
  · rintro ⟨present, works⟩
    exact ⟨⟨present, works 0 (by decide)⟩, present, works 1 (by decide)⟩
  · rintro ⟨⟨present, one⟩, _, two⟩
    refine ⟨present, fun i inside => ?_⟩
    obtain rfl | rfl : i = 0 ∨ i = 1 := by omega
    · exact one
    · exact two

/-- The transfers of a turn work, and its block is stored, or it answers -1; nothing
but the drives changes. -/
theorem storeChunk_outcome (fs : Diskfs) (block : Word) (start : Nat) (source : Bytes) (moved length : Nat) {needs : Nat}
    (amount : needs = if start ≠ 0 ∨ length < 512 then 2 else 1) :
    (fs.ata.driveExists fs.mountedDrive = true ∧ fs.ata.Works 0 needs →
      fs.storeChunk block start source moved length = (0, (fs.blockStored fs.mountedDrive block
        (fs.chunkStored fs.mountedDrive block start source moved length)).retime (fs.ata.transfers + needs))) ∧
    (¬ (fs.ata.driveExists fs.mountedDrive = true ∧ fs.ata.Works 0 needs) → ∃ ata,
      fs.storeChunk block start source moved length = (-1, { fs with ata })) := by
  by_cases partly : start ≠ 0 ∨ length < 512
  · rw [if_pos partly] at amount
    rw [amount, works_two, storeChunk, chunkStored, if_pos partly, if_pos partly]
    by_cases one : Ready fs.ata fs.mountedDrive
    · rw [one.readSectors]
      by_cases two : Ready fs.ata.tick fs.mountedDrive
      · refine ⟨fun _ => ?_, fun fails => absurd ⟨one, two⟩ fails⟩
        dsimp only
        rw [if_neg (by simp), two.writeSectors]
        exact if_neg (by simp)
      · refine ⟨fun works => absurd works.2 two, fun _ => ?_⟩
        dsimp only
        rw [if_neg (by simp), if_pos (by rw [writeSectors_fails two]; decide)]
        exact ⟨_, rfl⟩
    · refine ⟨fun works => absurd works.1 one, fun _ => ?_⟩
      dsimp only
      rw [if_pos (by rw [readSectors_fails one]; decide)]
      exact ⟨_, rfl⟩
  · rw [if_neg partly] at amount
    rw [amount, works_one, storeChunk, chunkStored, if_neg partly, if_neg partly]
    dsimp only
    rw [if_neg (by simp)]
    by_cases one : Ready fs.ata fs.mountedDrive
    · refine ⟨fun _ => ?_, fun fails => absurd one fails⟩
      rw [one.writeSectors]
      exact if_neg (by simp)
    · refine ⟨fun works => absurd works one, fun _ => ?_⟩
      rw [if_pos (by rw [writeSectors_fails one]; decide)]
      exact ⟨_, rfl⟩

end Store

/-- The state and the inode after one turn from `first` on. -/
structure NextTurn (fs : Diskfs) (inode : Inode) (first last : Nat) (next : Diskfs) (new : Inode) : Prop where
  drives : Ata.SameDrives fs.ata next.ata
  mountedDrive : next.mountedDrive = fs.mountedDrive
  transfers : next.ata.transfers = fs.ata.transfers + turnTransfers first last (first / 512)
  spare : next.spareBlocks + (if inode.block (first / 512) = 0 then 1 else 0) = fs.spareBlocks
  others : ∀ other, other ≠ first / 512 → new.block other = inode.block other

section Shift

variable {fs next : Diskfs} {inode new : Inode} {first last failing other : Nat}

theorem turnTransfers_chunk (more : first < last) :
    turnTransfers first last (first / 512) = if first % 512 ≠ 0 ∨ chunk first (last - first) < 512 then 2 else 1 := by
  rw [turnTransfers, chunk]
  congr 1
  apply propext
  split <;> omega

theorem turnWorks_first :
    fs.TurnWorks first last (first / 512) ↔
      fs.ata.driveExists fs.mountedDrive = true ∧ fs.ata.Works 0 (turnTransfers first last (first / 512)) := by
  rw [TurnWorks, transfersBefore, Nat.sub_self, if_neg fun both => Nat.lt_irrefl _ both.2]

/-- A turn that is not the last one ends at the end of its block. -/
theorem next_position (more : first + chunk first (last - first) < last) :
    first + chunk first (last - first) = 512 * (first / 512 + 1) := by
  unfold chunk at more ⊢
  split at more
  · omega
  · next whole =>
    rw [if_neg whole]
    omega

theorem NextTurn.works_iff (turn : NextTurn fs inode first last next new) (later : first / 512 < other)
    (covered : 512 * other < last) :
    next.TurnWorks (512 * (first / 512 + 1)) last other ↔ fs.TurnWorks first last other := by
  have present : next.ata.driveExists next.mountedDrive = fs.ata.driveExists fs.mountedDrive := by
    rw [Ata.driveExists, Ata.driveExists, turn.drives.present, turn.mountedDrive]
  have same : turnTransfers (512 * (first / 512 + 1)) last other = turnTransfers first last other := by
    rw [turnTransfers, turnTransfers]
    congr 1
    apply propext
    omega
  have before : turnTransfers first last (first / 512) + transfersBefore (512 * (first / 512 + 1)) other =
      transfersBefore first other := by
    rw [turnTransfers, transfersBefore, transfersBefore]
    split <;> split <;> split <;> omega
  rw [TurnWorks, TurnWorks, present, same, Ata.Works, Ata.Works, turn.drives.outcome, turn.transfers, ← before]
  simp only [Nat.add_assoc]

theorem holes_from {lower upper : Nat} (inside : lower ≤ upper) :
    holes inode lower upper = holes inode (lower + 1) upper + if inode.block lower = 0 then 1 else 0 := by
  rw [holes, holes, ← Finset.insert_Icc_add_one_left_eq_Icc inside, Finset.filter_insert]
  split
  · rw [Finset.card_insert_of_notMem (by simp)]
  · rfl

theorem holes_congr {lower upper : Nat} (same : ∀ index, lower ≤ index → new.block index = inode.block index) :
    holes new lower upper = holes inode lower upper := by
  rw [holes, holes]
  congr 1
  apply Finset.filter_congr
  intro index member
  rw [same index (Finset.mem_Icc.mp member).1]

/-- The same turn fails, seen from behind one that works. -/
theorem NextTurn.failsAt_iff (turn : NextTurn fs inode first last next new) (works : fs.TurnWorks first last (first / 512)) :
    FailsAt next new (first + chunk first (last - first)) last failing ↔ FailsAt fs inode first last failing := by
  have others (index : Nat) (behind : first / 512 + 1 ≤ index) := turn.others index (by omega)
  have spare := turn.spare
  constructor
  · rintro ⟨lower, upper, ⟨more, covered⟩, earlier, fails, room⟩
    rw [next_position more] at lower earlier fails room
    rw [Nat.mul_div_cancel_left _ (by decide)] at lower earlier room
    rw [turn.works_iff lower covered] at fails
    rw [holes_congr others] at room
    refine ⟨by omega, upper, ⟨by omega, covered⟩, ?_, fails, ?_⟩
    · intro index behind before
      by_cases here : index = first / 512
      · rw [here]
        exact works
      · exact (turn.works_iff (by omega) (by omega)).mp (earlier index (by omega) before)
    · rw [holes_from (by omega)]
      omega
  · rintro ⟨lower, upper, ⟨more, covered⟩, earlier, fails, room⟩
    have later : first / 512 < failing := by
      refine Nat.lt_of_le_of_ne lower ?_
      rintro rfl
      exact fails works
    have further : first + chunk first (last - first) < last := by
      unfold chunk
      split <;> omega
    rw [next_position further]
    rw [holes_from lower] at room
    refine ⟨?_, upper, ⟨?_, covered⟩, ?_, ?_, ?_⟩
    · rw [Nat.mul_div_cancel_left _ (by decide)]
      exact later
    · rw [← next_position further]
      exact further
    · intro index behind before
      rw [Nat.mul_div_cancel_left _ (by decide)] at behind
      exact (turn.works_iff (by omega) (by omega)).mpr (earlier index (by omega) before)
    · rw [turn.works_iff later covered]
      exact fails
    · rw [Nat.mul_div_cancel_left _ (by decide), holes_congr others]
      omega

end Shift

section Loop

variable {fs after : Diskfs} {inode : Inode} {source : Bytes} {offset size : Word}

/-- One turn of the loop of `diskfs_write` finds no block, ends the loop because
a transfer fails, or stores its bytes and goes on. -/
theorem writeLoop_outcome {moved : Nat} (source : Bytes) (turns : Nat) (more : moved < size.toNat)
    (bound : (offset.toNat + moved) / 512 < directBlocks) (small : offset.toNat + moved < 2 ^ 32) :
    (inode.block ((offset.toNat + moved) / 512) = 0 ∧ fs.spareBlocks = 0 ∧ ∀ result,
      writeLoop source offset size (turns + 1) fs inode moved = some result → result = (some (inode, moved), fs)) ∨
    ∃ mid new, Claimed fs inode ((offset.toNat + moved) / 512) mid new ∧
      mid.spareBlocks + (if inode.block ((offset.toNat + moved) / 512) = 0 then 1 else 0) = fs.spareBlocks ∧
      ((¬ fs.TurnWorks (offset.toNat + moved) (offset.toNat + size.toNat) ((offset.toNat + moved) / 512) ∧
        ∃ ata, writeLoop source offset size (turns + 1) fs inode moved = some (none, { mid with ata })) ∨
      fs.TurnWorks (offset.toNat + moved) (offset.toNat + size.toNat) ((offset.toNat + moved) / 512) ∧
        ∃ content transfers,
          (∀ lane < chunk (offset.toNat + moved) (size.toNat - moved),
            content ((offset.toNat + moved) % 512 + lane) = source (moved + lane)) ∧
          NextTurn fs inode (offset.toNat + moved) (offset.toNat + size.toNat)
            ((mid.blockStored fs.mountedDrive (new.block ((offset.toNat + moved) / 512)) content).retime transfers) new ∧
          writeLoop source offset size (turns + 1) fs inode moved =
            writeLoop source offset size turns
              ((mid.blockStored fs.mountedDrive (new.block ((offset.toNat + moved) / 512)) content).retime transfers) new
              (moved + chunk (offset.toNat + moved) (size.toNat - moved))) := by
  rw [writeLoop, position_eq small, if_neg (by omega), if_neg (by omega)]
  rcases claimBlock_cases fs inode ((offset.toNat + moved) / 512) with ⟨mid, new, claimed, call, spare⟩ | ⟨hole, none_left, call⟩
  · refine .inr ⟨mid, new, claimed, spare, ?_⟩
    have left : offset.toNat + size.toNat - (offset.toNat + moved) = size.toNat - moved := by omega
    have amount := @turnTransfers_chunk (offset.toNat + moved) (offset.toNat + size.toNat) (by omega)
    rw [left] at amount
    obtain ⟨stores, stops⟩ := storeChunk_outcome mid (new.block ((offset.toNat + moved) / 512))
      ((offset.toNat + moved) % 512) source moved (chunk (offset.toNat + moved) (size.toNat - moved)) amount
    have drive : mid.mountedDrive = fs.mountedDrive := by cases claimed <;> rfl
    have ready : mid.ata.driveExists mid.mountedDrive = true ∧ mid.ata.Works 0 (turnTransfers (offset.toNat + moved)
        (offset.toNat + size.toNat) ((offset.toNat + moved) / 512)) ↔
        fs.TurnWorks (offset.toNat + moved) (offset.toNat + size.toNat) ((offset.toNat + moved) / 512) := by
      rw [claimed.ata, drive, turnWorks_first]
    rw [call]
    dsimp only
    by_cases works : fs.TurnWorks (offset.toNat + moved) (offset.toNat + size.toNat) ((offset.toNat + moved) / 512)
    · have store := stores (ready.mpr works)
      rw [drive] at store
      refine .inr ⟨works,
        mid.chunkStored fs.mountedDrive (new.block ((offset.toNat + moved) / 512)) ((offset.toNat + moved) % 512) source moved
          (chunk (offset.toNat + moved) (size.toNat - moved)),
        mid.ata.transfers + turnTransfers (offset.toNat + moved) (offset.toNat + size.toNat) ((offset.toNat + moved) / 512),
        ?_, ⟨?_, drive, ?_, spare, fun other apart => claimed.block_other apart⟩, ?_⟩
      · intro lane inside
        rw [chunkStored, Bytes.copy_inside (by omega) (by omega), Nat.add_sub_cancel_left]
      · rw [← claimed.ata]
        exact ⟨rfl, rfl⟩
      · rw [← claimed.ata]
        rfl
      · rw [store]
        rfl
    · obtain ⟨ata, store⟩ := stops (mt ready.mp works)
      refine .inl ⟨works, ata, ?_⟩
      rw [store]
      rfl
  · refine .inl ⟨hole, none_left, ?_⟩
    intro result turn
    cases claim : fs.claimBlock inode ((offset.toNat + moved) / 512) with
    | none =>
      rw [claim] at turn
      cases turn
    | some found =>
      obtain rfl := call found claim
      rw [claim] at turn
      cases turn
      rfl

/-- A turn stays within the greatest file. -/
theorem chunk_within {position left : Nat} (more : 0 < left) (bound : position / 512 < directBlocks) :
    position + chunk position left ≤ 6144 := by
  obtain ⟨_, _, block, _⟩ := @chunk_spec position left more
  rw [directBlocks] at bound
  omega

/-- Where the loop of `diskfs_write` is done. -/
theorem writeLoop_done {moved turns : Nat} (small : offset.toNat + moved < 2 ^ 32)
    (done : size.toNat ≤ moved ∨ directBlocks ≤ (offset.toNat + moved) / 512) :
    writeLoop source offset size (turns + 1) fs inode moved = some (some (inode, moved), fs) := by
  rw [writeLoop, position_eq small]
  rcases done with all | past
  · rw [if_pos all]
  · rw [if_pos past, ite_self]

/-- No bit is cleared by the loop. -/
theorem writeLoop_bitmap {turns moved : Nat} (within : offset.toNat + moved ≤ 6144 ∨ moved = 0)
    {found : Option (Inode × Nat)} (call : writeLoop source offset size turns fs inode moved = some (found, after))
    {bit : Nat} (present : fs.blockBitmap.test bit = true) : after.blockBitmap.test bit = true := by
  induction turns generalizing fs inode moved with
  | zero => cases call
  | succ turns ih =>
    have limit := offset.isLt
    by_cases done : size.toNat ≤ moved ∨ directBlocks ≤ (offset.toNat + moved) / 512
    · rw [writeLoop_done (by omega) done] at call
      cases call
      exact present
    rw [not_or, not_le, not_le] at done
    have further := @chunk_within (offset.toNat + moved) (size.toNat - moved) (by omega) done.2
    rcases @writeLoop_outcome fs inode offset size moved source turns done.1 done.2 (by omega) with
      ⟨_, _, stuck⟩ | ⟨mid, new, claimed, _, ⟨_, ata, stops⟩ | ⟨_, _, _, _, _, rest⟩⟩
    · cases stuck _ call
      exact present
    · rw [stops] at call
      cases call
      exact claimed.bitmap present
    · rw [rest] at call
      exact ih (by omega) call (claimed.bitmap present)

/-- A pointer of this range is zero. -/
def HasHole (inode : Inode) (lower upper : Nat) : Prop := ∃ index, lower ≤ index ∧ index ≤ upper ∧ inode.block index = 0

/-- A bit of the block bitmap was set. -/
def TakesBlock (fs after : Diskfs) : Prop := ∃ bit, fs.blockBitmap.test bit = false ∧ after.blockBitmap.test bit = true

/-- When the loop of `diskfs_write` fails, the blocks for the zero pointers up
to the failing turn stay taken. -/
theorem writeLoop_failed {turns moved : Nat} (within : offset.toNat + moved ≤ 6144 ∨ moved = 0)
    (call : writeLoop source offset size turns fs inode moved = some (none, after)) :
    ∃ failing, FailsAt fs inode (offset.toNat + moved) (offset.toNat + size.toNat) failing ∧
      (¬ HasHole inode ((offset.toNat + moved) / 512) failing → SameMaps fs after) ∧
      (HasHole inode ((offset.toNat + moved) / 512) failing → TakesBlock fs after) := by
  induction turns generalizing fs inode moved with
  | zero => cases call
  | succ turns ih =>
    have limit := offset.isLt
    by_cases done : size.toNat ≤ moved ∨ directBlocks ≤ (offset.toNat + moved) / 512
    · rw [writeLoop_done (by omega) done] at call
      cases call
    rw [not_or, not_le, not_le] at done
    have further := @chunk_within (offset.toNat + moved) (size.toNat - moved) (by omega) done.2
    rcases @writeLoop_outcome fs inode offset size moved source turns done.1 done.2 (by omega) with
      ⟨_, _, stuck⟩ | ⟨mid, new, claimed, spare, ⟨fails, ata, stops⟩ | ⟨works, _, _, _, turn, rest⟩⟩
    · cases stuck _ call
    · rw [stops] at call
      cases call
      refine ⟨_, ⟨Nat.le_refl _, done.2, ⟨by omega, by omega⟩, fun index lower upper => by omega, fails, ?_⟩, ?_, ?_⟩
      · rw [holes, Finset.Icc_self, Finset.filter_singleton]
        split at spare
        · next hole =>
          rw [if_pos hole]
          exact spare ▸ Nat.le_add_left _ _
        · next pointer =>
          rw [if_neg pointer]
          exact Nat.zero_le _
      · intro whole
        cases claimed with
        | kept _ => exact ⟨rfl, rfl, rfl⟩
        | fresh _ hole _ _ _ => exact absurd ⟨_, Nat.le_refl _, Nat.le_refl _, hole⟩ whole
      · rintro ⟨index, lower, upper, hole⟩
        obtain rfl : index = (offset.toNat + moved) / 512 := by omega
        cases claimed with
        | kept pointer => exact absurd hole pointer
        | fresh block _ _ free _ => exact ⟨block, free, by rw [blockTaken, Bitmap.test_set _ (by decide)]; simp⟩
    · rw [rest] at call
      obtain ⟨failing, failsAt, same, takes⟩ := ih (by omega) call
      have left : offset.toNat + size.toNat - (offset.toNat + moved) = size.toNat - moved := by omega
      have shift := @NextTurn.failsAt_iff _ _ _ _ _ _ failing turn works
      rw [left, Nat.add_assoc] at shift
      have here := shift.mp failsAt
      have lower := here.lower
      obtain ⟨_, _, block, _⟩ := @chunk_spec (offset.toNat + moved) (size.toNat - moved) (by omega)
      cases claimed with
      | kept pointer =>
        refine ⟨failing, here, ?_, ?_⟩
        · intro whole
          have without : ¬ HasHole inode ((offset.toNat + (moved + chunk (offset.toNat + moved) (size.toNat - moved))) / 512)
              failing := by
            rintro ⟨index, first, last, hole⟩
            exact whole ⟨index, by omega, last, hole⟩
          obtain ⟨inodes, blocks, superblock⟩ := same without
          exact ⟨inodes, blocks, superblock⟩
        · rintro ⟨index, first, last, hole⟩
          have other : index ≠ (offset.toNat + moved) / 512 := by
            rintro rfl
            exact pointer hole
          exact takes ⟨index, by omega, last, hole⟩
      | fresh number hole small free _ =>
        refine ⟨failing, here, fun whole => absurd ⟨_, Nat.le_refl _, lower, hole⟩ whole, fun _ => ⟨number, free, ?_⟩⟩
        apply writeLoop_bitmap (by omega) call
        change (fs.blockBitmap.set number).test number = true
        rw [Bitmap.test_set _ (by decide)]
        simp

/-- It fails whenever a turn does. -/
theorem writeLoop_of_failsAt {turns moved failing : Nat} (within : offset.toNat + moved ≤ 6144 ∨ moved = 0)
    (fails : FailsAt fs inode (offset.toNat + moved) (offset.toNat + size.toNat) failing)
    (enough : failing < turns + (offset.toNat + moved) / 512) :
    ∃ after, writeLoop source offset size turns fs inode moved = some (none, after) := by
  have lower := fails.lower
  induction turns generalizing fs inode moved with
  | zero => omega
  | succ turns ih =>
    have limit := offset.isLt
    have upper := fails.upper
    have more := fails.covered.1
    have further := @chunk_within (offset.toNat + moved) (size.toNat - moved) (by omega) (by omega)
    rcases @writeLoop_outcome fs inode offset size moved source turns (by omega) (by omega) (by omega) with
      ⟨hole, none_left, _⟩ | ⟨mid, new, claimed, _, ⟨_, ata, stops⟩ | ⟨works, _, _, _, turn, rest⟩⟩
    · have room := fails.room
      rw [holes_from lower, if_pos hole] at room
      omega
    · exact ⟨_, stops⟩
    · have left : offset.toNat + size.toNat - (offset.toNat + moved) = size.toNat - moved := by omega
      have shift := @NextTurn.failsAt_iff _ _ _ _ _ _ failing turn works
      rw [left, Nat.add_assoc] at shift
      have later := shift.mpr fails
      rw [rest]
      refine ih (by omega) later ?_ later.lower
      have next := @next_position (offset.toNat + moved) (offset.toNat + size.toNat)
      rw [left] at next
      have ended := next (by rw [Nat.add_assoc]; exact later.covered.1)
      omega

theorem FailsAt.unique {first last failing other : Nat} (fails : FailsAt fs inode first last failing)
    (again : FailsAt fs inode first last other) : failing = other := by
  rcases Nat.lt_trichotomy failing other with before | same | behind
  · exact absurd (again.earlier failing fails.lower before) fails.fails
  · exact same
  · exact absurd (fails.earlier other again.lower behind) again.fails

end Loop

/-- A `diskfs_write` takes a block for a zero pointer, and in that turn or a
later one a transfer fails. -/
def Leaks (fs : Diskfs) (ino offset size : Word) : Prop :=
  fs.mountedDrive ≠ 0xFF ∧ ∃ inode mid failing, fs.readInode fs.mountedDrive ino = some (.ok inode, mid) ∧
    FailsAt mid inode offset.toNat (offset.toNat + (cutSize offset size).toNat) failing ∧
    HasHole inode (offset.toNat / 512) failing

section Write

variable {fs after : Diskfs} {ino offset size now : Word} {source : Bytes} {ret : Int}

/-- A `diskfs_write` that fails and leaks no block changes none of the maps. -/
theorem write_sameMaps (sound : ¬ fs.Leaks ino offset size) (call : fs.write ino source offset size now = some (ret, after))
    (failed : ret < 0) : SameMaps fs after := by
  rcases write_cases call with ⟨⟨_, rfl⟩ | ⟨_, load⟩, _⟩ |
    ⟨mounted, inode, mid, load, ⟨loop, _⟩ | ⟨_, _, _, _, _, rfl, _⟩⟩
  · exact ⟨rfl, rfl, rfl⟩
  · exact readInode_sameMaps load
  · obtain ⟨failing, failsAt, same, _⟩ := writeLoop_failed (.inr rfl) loop
    exact (readInode_sameMaps load).trans (same fun hole => sound ⟨mounted, inode, mid, failing, load, failsAt, hole⟩)
  · omega

theorem Leaks.write (leaks : fs.Leaks ino offset size) (source : Bytes) (now : Word) :
    ∃ after, fs.write ino source offset size now = some (-1, after) ∧ TakesBlock fs after := by
  obtain ⟨mounted, inode, mid, failing, load, failsAt, hole⟩ := leaks
  have opened := readInode_sameMaps load
  obtain ⟨after, loop⟩ := @writeLoop_of_failsAt mid inode source offset (cutSize offset size) maxTurns 0 failing (.inr rfl)
    failsAt (by have upper := failsAt.upper; rw [maxTurns]; omega)
  obtain ⟨other, again, _, takes⟩ := writeLoop_failed (.inr rfl) loop
  obtain rfl := failsAt.unique again
  refine ⟨after, ?_, ?_⟩
  · rw [write_loaded mounted load, loop]
    rfl
  · obtain ⟨bit, free, taken⟩ := takes hole
    exact ⟨bit, opened.blockBitmap ▸ free, taken⟩

end Write

/-- The bitmaps and the counts of what is free are as they were. -/
structure MapsKept (fs after : Diskfs) : Prop where
  inodeBitmap : after.inodeBitmap = fs.inodeBitmap
  blockBitmap : after.blockBitmap = fs.blockBitmap
  freeInodes : after.superblock.freeInodes = fs.superblock.freeInodes
  freeBlocks : after.superblock.freeBlocks = fs.superblock.freeBlocks

/-- `diskfs_create` comes to its directory write in the state `begun`. -/
def EntryBegins (fs : Diskfs) (junk : Nat → Dirent) (parentIno : Word) (name : CString) (type created : Word)
    (parent : Inode) (begun : Diskfs) : Prop :=
  fs.mountedDrive ≠ 0xFF ∧ name.bytes.length < maxFilename ∧ ∃ opened found looked number taken,
    fs.readInode fs.mountedDrive parentIno = some (.ok parent, opened) ∧ parent.type = typeDir ∧
    opened.lookup junk parentIno name = some (found, looked) ∧ found < 0 ∧
    looked.allocInode = some (number, taken) ∧ 0 ≤ number ∧
    taken.writeInode taken.mountedDrive (BitVec.ofInt 32 number) (Inode.fresh type parentIno created) = some (0, begun)

section Create

variable {fs mid last after : Diskfs} {bit : Nat} {parentIno type created written : Word} {name : CString}
  {junk : Nat → Dirent} {ret : Int}

theorem SameMaps.kept (same : SameMaps fs after) : MapsKept fs after :=
  ⟨same.inodeBitmap, same.blockBitmap, by rw [same.superblock], by rw [same.superblock]⟩

theorem TakesBlock.not_kept (takes : TakesBlock fs after) : ¬ MapsKept fs after := by
  obtain ⟨bit, free, taken⟩ := takes
  intro kept
  rw [kept.blockBitmap, free] at taken
  cases taken

theorem allocInode_cases {number : Int} (call : fs.allocInode = some (number, after)) :
    number < 0 ∧ after = fs ∨
      ∃ bit : Nat, number = bit ∧ bit < fs.superblock.totalInodes.toNat ∧ bit < maxBlocks ∧
        fs.inodeBitmap.test bit = false ∧ after = fs.inodeTaken bit := by
  rw [allocInode] at call
  obtain ⟨found, search, call⟩ := Option.bind_eq_some_iff.mp call
  have scan := bitmapFindFrom_cases fs.inodeBitmap fs.superblock.totalInodes.toNat 0
  rw [Nat.zero_add] at scan
  rcases scan with ⟨bit, _, inside, result, free, _⟩ | ⟨_, full, _⟩
  · obtain rfl : found = bit := Option.some.inj (search.symm.trans result)
    rw [if_neg (by omega)] at call
    cases call
    exact .inr ⟨bit, rfl, by omega, by omega, free, rfl⟩
  · obtain rfl := full found search
    rw [if_pos (by decide)] at call
    cases call
    exact .inl ⟨by decide, rfl⟩

/-- An inode given back at once leaves no trace. -/
theorem freeInode_restores (inside : bit < fs.superblock.totalInodes.toNat) (small : bit < maxBlocks)
    (free : fs.inodeBitmap.test bit = false) (same : SameMaps (fs.inodeTaken bit) last)
    (call : last.freeInode (BitVec.ofInt 32 bit) = some after) : MapsKept fs after := by
  have number : (BitVec.ofInt 32 bit).toNat = bit := by
    rw [maxBlocks] at small
    rw [BitVec.toNat_ofInt]
    omega
  have total : last.superblock.totalInodes = fs.superblock.totalInodes := by
    rw [same.superblock]
    exact Bytes.word_setWord_of_apart (by decide)
  rw [freeInode, if_neg (by rw [total, ge_iff_le, BitVec.le_def, number]; omega), if_neg (by omega), number] at call
  cases call
  refine ⟨?_, same.blockBitmap, ?_, ?_⟩
  · change last.inodeBitmap.clear bit = _
    rw [same.inodeBitmap]
    exact Bitmap.clear_set free
  · refine (last.superblock.setFreeInodes_counters _).1.trans ?_
    have counter : last.superblock.freeInodes = fs.superblock.freeInodes - 1 := by
      rw [same.superblock]
      exact (fs.superblock.setFreeInodes_counters _).1
    rw [counter, BitVec.sub_add_cancel]
  · refine (last.superblock.setFreeInodes_counters _).2.trans ?_
    rw [same.superblock]
    exact (fs.superblock.setFreeInodes_counters _).2

/-- From `alloc_inode` on. -/
theorem createEntry_mapsKept {size : Word}
    (sound : ∀ number taken begun, fs.allocInode = some (number, taken) → 0 ≤ number →
      taken.writeInode taken.mountedDrive (BitVec.ofInt 32 number) (Inode.fresh type parentIno created) = some (0, begun) →
      ¬ begun.Leaks parentIno size (BitVec.ofNat 32 Dirent.bytes))
    (call : fs.createEntry parentIno size name type created written = some (ret, after)) (failed : ret < 0) :
    MapsKept fs after := by
  rw [createEntry] at call
  obtain ⟨⟨number, taken⟩, alloc, call⟩ := Option.bind_eq_some_iff.mp call
  dsimp only at call
  rcases allocInode_cases alloc with ⟨none_left, same⟩ | ⟨bit, found, inside, small, free, same⟩
  · rw [if_pos none_left] at call
    cases call
    subst same
    exact ⟨rfl, rfl, rfl, rfl⟩
  rw [if_neg (by omega)] at call
  obtain ⟨⟨code, stored⟩, store, call⟩ := Option.bind_eq_some_iff.mp call
  have storing := writeInode_sameMaps store
  rw [same] at storing
  dsimp only at call
  split at call
  · obtain ⟨freed, give, call⟩ := Option.bind_eq_some_iff.mp call
    cases call
    rw [found] at give
    exact freeInode_restores inside small free storing give
  next works =>
  rw [not_not] at works
  subst works
  obtain ⟨⟨count, last⟩, write, call⟩ := Option.bind_eq_some_iff.mp call
  dsimp only at call
  split at call
  · next refused =>
    obtain ⟨freed, give, call⟩ := Option.bind_eq_some_iff.mp call
    cases call
    have writing := write_sameMaps (sound number taken stored alloc (by omega) store) write refused
    rw [found] at give
    exact freeInode_restores inside small free (storing.trans writing) give
  · cases call
    omega

/-- A `diskfs_create` that fails keeps the maps if its directory write leaks
nothing. -/
theorem create_mapsKept
    (sound : ∀ parent begun, EntryBegins fs junk parentIno name type created parent begun →
      ¬ begun.Leaks parentIno parent.size (BitVec.ofNat 32 Dirent.bytes))
    (call : fs.create junk parentIno name type created written = some (ret, after)) (failed : ret < 0) :
    MapsKept fs after := by
  rw [create] at call
  split at call
  · cases call
    exact ⟨rfl, rfl, rfl, rfl⟩
  next mounted =>
  split at call
  · cases call
    exact ⟨rfl, rfl, rfl, rfl⟩
  next short =>
  obtain ⟨⟨loaded, opened⟩, load, call⟩ := Option.bind_eq_some_iff.mp call
  have opening := readInode_sameMaps load
  cases loaded with
  | error code =>
    cases call
    exact opening.kept
  | ok parent =>
    dsimp only at call
    split at call
    · cases call
      exact opening.kept
    next directory =>
    rw [not_not] at directory
    obtain ⟨⟨found, looked⟩, look, call⟩ := Option.bind_eq_some_iff.mp call
    have looking := opening.trans (lookup_sameMaps look)
    dsimp only at call
    split at call
    · cases call
      exact looking.kept
    next absent =>
    obtain ⟨inodes, blocks, freeInodes, freeBlocks⟩ := createEntry_mapsKept
      (fun number taken begun alloc positive store => sound parent begun ⟨mounted, Nat.lt_of_not_le short, opened, found, looked,
        number, taken, load, directory, look, not_le.mp absent, alloc, positive, store⟩) call failed
    exact ⟨inodes.trans looking.inodeBitmap, blocks.trans looking.blockBitmap, looking.superblock ▸ freeInodes,
      looking.superblock ▸ freeBlocks⟩

/-- The block that the directory write leaks is leaked by `diskfs_create`. -/
theorem EntryBegins.create_takes {parent : Inode} {begun : Diskfs}
    (begins : EntryBegins fs junk parentIno name type created parent begun)
    (leaks : begun.Leaks parentIno parent.size (BitVec.ofNat 32 Dirent.bytes)) (written : Word) :
    ∃ after, fs.create junk parentIno name type created written = some (-1, after) ∧ TakesBlock fs after := by
  obtain ⟨mounted, short, opened, found, looked, number, taken, load, directory, look, absent, alloc, positive, store⟩ := begins
  have kept := ((readInode_sameMaps load).trans (lookup_sameMaps look)).blockBitmap
  rcases allocInode_cases alloc with ⟨none_left, _⟩ | ⟨bit, rfl, _, small, _, rfl⟩
  · omega
  obtain ⟨last, write, block, free, present⟩ := leaks.write (Dirent.make (BitVec.ofInt 32 bit) name) written
  have place : (BitVec.ofInt 32 bit).toNat = bit := by
    rw [maxBlocks] at small
    rw [BitVec.toNat_ofInt]
    omega
  obtain ⟨after, give, blocks⟩ : ∃ after, last.freeInode (BitVec.ofInt 32 bit) = some after ∧
      after.blockBitmap = last.blockBitmap := by
    rw [freeInode]
    split
    · exact ⟨_, rfl, rfl⟩
    · rw [if_neg (by omega)]
      exact ⟨_, rfl, rfl⟩
  refine ⟨after, ?_, block, ?_, ?_⟩
  · have found_none : ¬ 0 ≤ found := by omega
    have got : ¬ (bit : Int) < 0 := by omega
    rw [create, if_neg mounted, if_neg (Nat.not_le_of_lt short), load]
    simp only [Option.bind_eq_bind, Option.bind_some, directory, ne_eq, not_true_eq_false, ↓reduceIte, look, found_none]
    rw [createEntry, alloc]
    simp only [Option.bind_eq_bind, Option.bind_some, got, ↓reduceIte]
    rw [store]
    simp only [Option.bind_some, ne_eq, not_true_eq_false, ↓reduceIte]
    rw [write]
    simp only [Option.bind_some, Int.reduceNeg, Int.reduceLT, ↓reduceIte]
    rw [give]
    rfl
  · rw [← kept, ← free]
    exact congrArg (fun bitmap => Bitmap.test bitmap block) (writeInode_sameMaps store).blockBitmap.symm
  · rw [blocks]
    exact present

end Create

section Returning

variable {fs : Diskfs} {parentIno ino : Word} {name : CString} {junk : Nat → Dirent}

theorem readInode_returns (slot : ino.toNat % 4 ≠ 3) (drive : Byte) : ∃ result, fs.readInode drive ino = some result := by
  unfold readInode
  split
  · exact ⟨_, rfl⟩
  · split
    · exact ⟨_, rfl⟩
    · dsimp only
      split
      · exact ⟨_, rfl⟩
      · rw [if_neg (slot_fits.mpr slot)]
        exact ⟨_, rfl⟩

/-- No call of `diskfs_write` leaves its buffers when the record ends inside
its sector and the total is that of the bitmap. -/
theorem write_answers (slot : ino.toNat % 4 ≠ 3) (total : fs.superblock.totalBlocks.toNat ≤ maxBlocks) (source : Bytes)
    (offset size now : Word) : ∃ ret after, fs.write ino source offset size now = some (ret, after) := by
  by_cases unmounted : fs.mountedDrive = 0xFF
  · rw [write, if_pos unmounted]
    exact ⟨_, _, rfl⟩
  obtain ⟨⟨loaded, mid⟩, load⟩ := @readInode_returns fs ino slot fs.mountedDrive
  cases loaded with
  | error code =>
    rw [write, if_neg unmounted, load]
    exact ⟨_, _, rfl⟩
  | ok inode => exact write_returns unmounted load total slot source offset size now

/-- Inodes that are given out have their records inside a sector. -/
def SlotsFree (fs : Diskfs) : Prop :=
  ∀ number, bitmapFindFree fs.inodeBitmap fs.superblock.totalInodes = some number → number.toNat % 4 ≠ 3

/-- The two totals are not above those of the bitmaps. -/
def Totals (fs : Diskfs) : Prop :=
  fs.superblock.totalInodes.toNat ≤ maxBlocks ∧ fs.superblock.totalBlocks.toNat ≤ maxBlocks

theorem freeInode_returns {bit : Nat} (small : bit < maxBlocks) (fs : Diskfs) :
    ∃ after, fs.freeInode (BitVec.ofInt 32 bit) = some after := by
  have place : (BitVec.ofInt 32 bit).toNat = bit := by
    rw [maxBlocks] at small
    rw [BitVec.toNat_ofInt]
    omega
  rw [freeInode, place]
  split
  · exact ⟨_, rfl⟩
  · rw [if_neg (by omega)]
    exact ⟨_, rfl⟩

theorem createEntry_answers (slot : parentIno.toNat % 4 ≠ 3) (slots : SlotsFree fs) (totals : Totals fs) (size : Word)
    (name : CString) (type created written : Word) :
    ∃ ret after, fs.createEntry parentIno size name type created written = some (ret, after) := by
  rcases bitmapFindFree_spec fs.inodeBitmap totals.1 with ⟨full, _⟩ | ⟨bit, inside, found, _⟩
  · have alloc : fs.allocInode = some (-1, fs) := by
      rw [allocInode, full]
      rfl
    rw [createEntry, alloc]
    exact ⟨_, _, rfl⟩
  have small : bit < maxBlocks := inside.trans_le totals.1
  have positive : ¬ (bit : Int) < 0 := by omega
  have alloc : fs.allocInode = some ((bit : Int), fs.inodeTaken bit) := by
    rw [allocInode, found]
    simp only [Option.bind_eq_bind, Option.bind_some, positive, ↓reduceIte]
    rfl
  have place : (BitVec.ofInt 32 bit).toNat = bit := by
    rw [maxBlocks] at small
    rw [BitVec.toNat_ofInt]
    omega
  obtain ⟨⟨code, stored⟩, store⟩ := @writeInode_returns (fs.inodeTaken bit) (fs.inodeTaken bit).mountedDrive
    (BitVec.ofInt 32 bit) (by rw [place]; exact slots bit found) (Inode.fresh type parentIno created)
  have kept := writeInode_sameMaps store
  have total : stored.superblock.totalBlocks = fs.superblock.totalBlocks := by
    rw [kept.superblock]
    exact Bytes.word_setWord_of_apart (by decide)
  obtain ⟨ret, last, write⟩ := @write_answers stored parentIno slot (total ▸ totals.2)
    (Dirent.make (BitVec.ofInt 32 bit) name) size (BitVec.ofNat 32 Dirent.bytes) written
  obtain ⟨back, giveBack⟩ := freeInode_returns small stored
  obtain ⟨freed, give⟩ := freeInode_returns small last
  rw [createEntry, alloc]
  simp only [Option.bind_eq_bind, Option.bind_some, positive, ↓reduceIte, store]
  split
  · rw [giveBack]
    exact ⟨_, _, rfl⟩
  · rw [write]
    dsimp only [Option.bind_some]
    split
    · rw [give]
      exact ⟨_, _, rfl⟩
    · exact ⟨_, _, rfl⟩

/-- The comparisons of the lookup stay inside the names of the entries. -/
def NamesEnd (fs : Diskfs) (junk : Nat → Dirent) (parentIno : Word) (name : CString) : Prop :=
  ∀ parent opened, fs.readInode fs.mountedDrive parentIno = some (.ok parent, opened) → parent.type = typeDir →
    ∃ result, opened.lookup junk parentIno name = some result

theorem create_answers (slot : parentIno.toNat % 4 ≠ 3) (slots : SlotsFree fs) (totals : Totals fs)
    (names : NamesEnd fs junk parentIno name) (type created written : Word) :
    ∃ ret after, fs.create junk parentIno name type created written = some (ret, after) := by
  rw [create]
  by_cases unmounted : fs.mountedDrive = 0xFF
  · rw [if_pos unmounted]
    exact ⟨_, _, rfl⟩
  rw [if_neg unmounted]
  by_cases long : maxFilename ≤ name.bytes.length
  · rw [if_pos long]
    exact ⟨_, _, rfl⟩
  rw [if_neg long]
  obtain ⟨⟨loaded, opened⟩, load⟩ := @readInode_returns fs parentIno slot fs.mountedDrive
  rw [load]
  cases loaded with
  | error code => exact ⟨_, _, rfl⟩
  | ok parent =>
    dsimp only [Option.bind_eq_bind, Option.bind_some]
    by_cases directory : parent.type = typeDir
    · obtain ⟨⟨found, looked⟩, look⟩ := names parent opened load directory
      have same := (readInode_sameMaps load).trans (lookup_sameMaps look)
      rw [if_neg (not_not.mpr directory), look]
      dsimp only [Option.bind_some]
      split
      · exact ⟨_, _, rfl⟩
      · refine createEntry_answers slot ?_ ?_ parent.size name type created written
        · rw [SlotsFree, same.inodeBitmap, same.superblock]
          exact slots
        · rw [Totals, same.superblock]
          exact totals
    · rw [if_pos directory]
      exact ⟨_, _, rfl⟩

end Returning

/-- Of the calls whose records end inside their sectors a `diskfs_write` that
fails keeps the bitmaps and the counts exactly if it has taken no block before,
and a `diskfs_create` exactly if the write of its entry does so; such calls
return. -/
theorem failed_call_keeps_maps_iff (fs : Diskfs) :
    (∀ ino source offset size now, ino.toNat % 4 ≠ 3 →
      ((∀ ret after, fs.write ino source offset size now = some (ret, after) → ret < 0 → MapsKept fs after) ↔
        ¬ fs.Leaks ino offset size) ∧
      (fs.superblock.totalBlocks.toNat ≤ maxBlocks →
        ∃ ret after, fs.write ino source offset size now = some (ret, after))) ∧
    (∀ junk parentIno name type created written, parentIno.toNat % 4 ≠ 3 → SlotsFree fs →
      ((∀ ret after, fs.create junk parentIno name type created written = some (ret, after) → ret < 0 → MapsKept fs after) ↔
        ∀ parent begun, EntryBegins fs junk parentIno name type created parent begun →
          ¬ begun.Leaks parentIno parent.size (BitVec.ofNat 32 Dirent.bytes)) ∧
      (Totals fs → NamesEnd fs junk parentIno name →
        ∃ ret after, fs.create junk parentIno name type created written = some (ret, after))) := by
  constructor
  · intro ino source offset size now slot
    refine ⟨⟨?_, ?_⟩, fun total => write_answers slot total source offset size now⟩
    · intro kept leaks
      obtain ⟨after, call, takes⟩ := leaks.write source now
      exact takes.not_kept (kept _ _ call (by decide))
    · intro sound ret after call failed
      exact (write_sameMaps sound call failed).kept
  · intro junk parentIno name type created written slot slots
    refine ⟨⟨?_, ?_⟩, fun totals names => create_answers slot slots totals names type created written⟩
    · intro kept parent begun begins leaks
      obtain ⟨after, call, takes⟩ := begins.create_takes leaks written
      exact takes.not_kept (kept _ _ call (by decide))
    · intro sound ret after call failed
      exact create_mapsKept sound call failed

/-- A formatted drive on which, after a `diskfs_mount`, the first transfers work
and the next one fails. -/
def flaky (working : Nat) : Diskfs :=
  { (uniform 0).formatted 0 0 with
    ata := { ((uniform 0).formatted 0 0).ata with
      outcome := fun transfer => if transfer = ((uniform 0).formatted 0 0).ata.transfers + 3 + working then some 0 else none } }

theorem takes_first_block {fs : Diskfs} {result : Option (Int × Diskfs)} (free : fs.blockBitmap.test 0 = false)
    (check : result.any (fun returned => decide (returned.1 < 0) && returned.2.blockBitmap.test 0) = true) :
    ∃ ret after, result = some (ret, after) ∧ ret < 0 ∧ ¬ MapsKept fs after := by
  obtain ⟨⟨ret, after⟩, call, check⟩ := (Option.any_eq_true _ _).mp check
  obtain ⟨failed, taken⟩ := Bool.and_eq_true_iff.mp check
  exact ⟨ret, after, call, of_decide_eq_true failed, TakesBlock.not_kept ⟨0, free, taken⟩⟩

/-- The first block of the root directory is taken and cannot be read. -/
theorem failed_call_takes_block :
    (¬ ∀ (before fs : Diskfs) drive, before.mount drive = (0, fs) → ∀ ino source offset size now ret after,
      fs.write ino source offset size now = some (ret, after) → ret < 0 → MapsKept fs after) ∧
    ¬ ∀ (before fs : Diskfs) drive, before.mount drive = (0, fs) → ∀ junk parentIno name type created written ret after,
      fs.create junk parentIno name type created written = some (ret, after) → ret < 0 → MapsKept fs after := by
  constructor
  · intro kept
    have mounted : (flaky 1).mount 0 = (0, ((flaky 1).mount 0).2) := Prod.ext (by decide +kernel) rfl
    obtain ⟨ret, after, call, failed, lost⟩ := @takes_first_block ((flaky 1).mount 0).2
      (((flaky 1).mount 0).2.write 0 (fun _ => 65) 0 1 0) (by decide +kernel) (by decide +kernel)
    exact lost (kept _ _ 0 mounted _ _ _ _ _ _ _ call failed)
  · intro kept
    have mounted : (flaky 3).mount 0 = (0, ((flaky 3).mount 0).2) := Prod.ext (by decide +kernel) rfl
    obtain ⟨ret, after, call, failed, lost⟩ := @takes_first_block ((flaky 3).mount 0).2
      (((flaky 3).mount 0).2.create (fun _ => Bytes.zero) 0 ⟨[97], by decide⟩ typeFile 0 0) (by decide +kernel) (by decide +kernel)
    exact lost (kept _ _ 0 mounted _ _ _ _ _ _ _ _ call failed)

end MexOS.Fs.Diskfs
