import MexOS.Fs.ReadAfterWrite
import Mathlib.Data.Nat.Find

/-! Where `diskfs_read` stops and how `diskfs_write` lengthens a file, for every
offset, size and outcome of the transfers. -/

namespace MexOS.Fs

open MexOS.Machine

namespace Ata

/-- The same drives, with the same outcomes to come. -/
structure SameDrives (ata after : Ata) : Prop where
  present : after.present = ata.present
  outcome : after.outcome = ata.outcome

variable {ata after : Ata} {drive : Byte}

theorem SameDrives.working (same : SameDrives ata after) (working : Working ata drive) : Working after drive := by
  refine ⟨?_, ?_⟩
  · rw [driveExists, same.present]
    exact working.driveExists
  · rw [same.outcome]
    exact working.works

theorem SameDrives.trans {last : Ata} (first : SameDrives ata after) (second : SameDrives after last) :
    SameDrives ata last := ⟨second.present.trans first.present, second.outcome.trans first.outcome⟩

theorem readSectors_drives (ata : Ata) (drive : Byte) (lba : Word) (count : Nat) (buffer : Bytes) :
    SameDrives ata (ata.readSectors drive lba count buffer).2.2 := by
  unfold readSectors
  split
  · exact ⟨rfl, rfl⟩
  · split
    · exact ⟨rfl, rfl⟩
    · split <;> exact ⟨rfl, rfl⟩

theorem writeSectors_drives (ata : Ata) (drive : Byte) (lba : Word) (count : Nat) (buffer : Bytes) :
    SameDrives ata (ata.writeSectors drive lba count buffer).2 := by
  unfold writeSectors
  split
  · exact ⟨rfl, rfl⟩
  · split
    · exact ⟨rfl, rfl⟩
    · split <;> exact ⟨rfl, rfl⟩

end Ata

namespace Diskfs

/-- The cache and the count of blocks are as they were, for the same drives. -/
structure CacheKept (fs after : Diskfs) : Prop where
  drives : Ata.SameDrives fs.ata after.ata
  mountedDrive : after.mountedDrive = fs.mountedDrive
  totalBlocks : after.superblock.totalBlocks = fs.superblock.totalBlocks
  inodeCache : after.inodeCache = fs.inodeCache
  inodeCacheNum : after.inodeCacheNum = fs.inodeCacheNum
  inodeCacheValid : after.inodeCacheValid = fs.inodeCacheValid

/-- `read_inode` finds the record in the cache. -/
def Seen (fs : Diskfs) (ino : Word) (inode : Inode) : Prop :=
  ino.toNat < maxInodes ∧ ∃ i, fs.cached ino = some i ∧ fs.inodeCache i = inode

section Cached

variable {fs after : Diskfs} {drive : Byte} {ino : Word} {inode : Inode}

theorem CacheKept.refl (fs : Diskfs) : CacheKept fs fs := ⟨⟨rfl, rfl⟩, rfl, rfl, rfl, rfl, rfl⟩

theorem CacheKept.trans {last : Diskfs} (first : CacheKept fs after) (second : CacheKept after last) :
    CacheKept fs last :=
  ⟨first.drives.trans second.drives, second.mountedDrive.trans first.mountedDrive,
    second.totalBlocks.trans first.totalBlocks, second.inodeCache.trans first.inodeCache, second.inodeCacheNum.trans first.inodeCacheNum,
    second.inodeCacheValid.trans first.inodeCacheValid⟩

theorem cacheKept_ata {ata : Ata} (drives : Ata.SameDrives fs.ata ata) : CacheKept fs { fs with ata } :=
  ⟨drives, rfl, rfl, rfl, rfl, rfl⟩

theorem Seen.readInode (seen : Seen fs ino inode) (drive : Byte) : fs.readInode drive ino = some (.ok inode, fs) := by
  obtain ⟨valid, i, hit, rfl⟩ := seen
  rw [Diskfs.readInode, if_neg (Nat.not_le_of_lt valid), hit]

theorem Seen.kept (seen : Seen fs ino inode) (kept : CacheKept fs after) : Seen after ino inode := by
  obtain ⟨valid, i, hit, rfl⟩ := seen
  refine ⟨valid, i, ?_, by rw [kept.inodeCache]⟩
  rw [cached, kept.inodeCacheNum, kept.inodeCacheValid]
  exact hit

/-- An inode that was read is in the cache from then on. -/
theorem seen_of_readInode (loaded : fs.readInode drive ino = some (.ok inode, after)) :
    Seen after ino inode ∧ Ata.SameDrives fs.ata after.ata ∧ after.mountedDrive = fs.mountedDrive ∧
      after.superblock = fs.superblock ∧ after.blockBitmap = fs.blockBitmap := by
  unfold Diskfs.readInode at loaded
  split at loaded
  · cases loaded
  · next valid =>
    rw [not_le] at valid
    split at loaded
    · next i hit =>
      cases loaded
      exact ⟨⟨valid, i, hit, rfl⟩, ⟨rfl, rfl⟩, rfl, rfl, rfl⟩
    · next miss =>
      have drives := fs.ata.readSectors_drives drive (inodeSector ino) 1 Bytes.zero
      cases result : fs.ata.readSectors drive (inodeSector ino) 1 Bytes.zero with
      | mk ret rest =>
        rw [result] at loaded drives
        dsimp only at loaded drives
        split at loaded
        · cases loaded
        · split at loaded
          · cases loaded
          · cases loaded
            refine ⟨⟨valid, fs.cacheIdx, ?_, Function.update_self _ _ _⟩, drives, rfl, rfl, rfl⟩
            rw [cached, List.find?_eq_some_iff_getElem]
            simp only [List.length_range, List.getElem_range, remember, Function.update_self, Bool.and_eq_true,
              beq_self_eq_true, and_self, true_and]
            refine ⟨fs.cacheIdx.val, fs.cacheIdx.isLt, rfl, ?_⟩
            intro i before
            rw [Function.update_of_ne before.ne, Function.update_of_ne before.ne, Bool.not_eq_true', ← Bool.not_eq_true,
              Bool.and_eq_true, beq_iff_eq]
            rintro ⟨present, same⟩
            exact of_not_cached miss (before.trans fs.cacheIdx.isLt) present same

/-- The cached record is replaced when `write_inode` answers 0, and only then. -/
theorem Seen.writeInode {old new : Inode} (seen : Seen fs ino old) {ret : Int}
    (call : fs.writeInode drive ino new = some (ret, after)) :
    after.mountedDrive = fs.mountedDrive ∧ Seen after ino (if ret = 0 then new else old) := by
  have read_drives := fs.ata.readSectors_drives drive (inodeSector ino) 1 Bytes.zero
  unfold Diskfs.writeInode at call
  rw [if_neg (Nat.not_le_of_lt seen.1)] at call
  cases first : fs.ata.readSectors drive (inodeSector ino) 1 Bytes.zero with
  | mk readRet rest =>
    rw [first] at call read_drives
    dsimp only at call read_drives
    split at call
    · next failed =>
      cases call
      rw [if_neg failed]
      exact ⟨rfl, seen.kept (cacheKept_ata read_drives)⟩
    · split at call
      · cases call
      · have write_drives := rest.2.writeSectors_drives drive (inodeSector ino) 1
          (rest.1.copy (inodeOffset ino) new 0 Inode.bytes)
        cases second : rest.2.writeSectors drive (inodeSector ino) 1
            (rest.1.copy (inodeOffset ino) new 0 Inode.bytes) with
        | mk writeRet ata =>
          rw [second] at call write_drives
          dsimp only at call write_drives
          have kept : CacheKept fs { fs with ata } := cacheKept_ata (read_drives.trans write_drives)
          split at call
          · next failed =>
            cases call
            rw [if_neg failed]
            exact ⟨rfl, seen.kept kept⟩
          · obtain ⟨valid, i, hit, same⟩ := seen
            rw [hit] at call
            cases call
            exact ⟨rfl, valid, i, hit, Function.update_self _ _ _⟩

end Cached
section Turns

variable {fs after : Diskfs} {inode : Inode} {index : Nat}

theorem claimBlock_kept {found : Option Inode} (bound : index < directBlocks)
    (call : fs.claimBlock inode index = some (found, after)) :
    CacheKept fs after ∧ ∀ new, found = some new → new.size = inode.size := by
  rw [directBlocks] at bound
  rw [claimBlock] at call
  split at call
  · rw [allocBlock] at call
    cases free : bitmapFindFree fs.blockBitmap fs.superblock.totalBlocks with
    | none =>
      rw [free] at call
      cases call
    | some block =>
      rw [free] at call
      simp only [Option.bind_eq_bind, Option.bind_some, Option.pure_def] at call
      by_cases full : block < 0
      · rw [if_pos full] at call
        cases call
        exact ⟨.refl fs, fun _ impossible => by cases impossible⟩
      · simp only [full, ↓reduceIte, Option.bind_some] at call
        cases call
        refine ⟨⟨⟨rfl, rfl⟩, rfl, Bytes.word_setWord_of_apart (by decide), rfl, rfl, rfl⟩, ?_⟩
        intro new same
        cases same
        exact Bytes.word_setWord_of_apart (by omega)
  · cases call
    refine ⟨.refl fs, ?_⟩
    intro new same
    cases same
    rfl

/-- A turn is given no block exactly when the pointer is zero and no bit is free. -/
theorem claimBlock_none_iff :
    (∃ after, fs.claimBlock inode index = some (none, after)) ↔
      inode.block index = 0 ∧ bitmapFindFree fs.blockBitmap fs.superblock.totalBlocks = some (-1) := by
  rw [claimBlock]
  split
  · next hole =>
    rw [allocBlock]
    cases free : bitmapFindFree fs.blockBitmap fs.superblock.totalBlocks with
    | none => simp
    | some block =>
      have sign := bitmapFindFrom_sign free
      by_cases full : block < 0
      · simp [hole, sign.mp full]
      · have found : block ≠ -1 := fun same => full (sign.mpr same)
        simp [full, found]
  · next pointer =>
    refine iff_of_false ?_ fun full => pointer full.1
    rintro ⟨_, call⟩
    cases call

theorem claimBlock_full (hole : inode.block index = 0)
    (full : bitmapFindFree fs.blockBitmap fs.superblock.totalBlocks = some (-1)) :
    fs.claimBlock inode index = some (none, fs) := by
  rw [claimBlock, if_pos hole, allocBlock, full]
  rfl

theorem claimBlock_returns (total : fs.superblock.totalBlocks.toNat ≤ maxBlocks) (inode : Inode) (index : Nat) :
    ∃ result, fs.claimBlock inode index = some result := by
  rw [claimBlock, allocBlock]
  split
  · rcases bitmapFindFree_spec fs.blockBitmap total with ⟨full, _⟩ | ⟨bit, _, found, _⟩
    · rw [full]
      exact ⟨_, rfl⟩
    · have taken : ¬ (bit : Int) < 0 := by omega
      rw [found]
      simp only [Option.bind_eq_bind, Option.bind_some, taken, ↓reduceIte, Option.pure_def]
      exact ⟨_, rfl⟩
  · exact ⟨_, rfl⟩

theorem storeChunk_kept (fs : Diskfs) (block : Word) (blockOffset : Nat) (source : Bytes) (moved length : Nat) :
    CacheKept fs (fs.storeChunk block blockOffset source moved length).2 := by
  have start : Ata.SameDrives fs.ata
      (if blockOffset ≠ 0 ∨ length < 512 then fs.ata.readSectors fs.mountedDrive (dataStart + block) 1 Bytes.zero
        else ((0 : Int), Bytes.zero, fs.ata)).2.2 := by
    split
    · exact fs.ata.readSectors_drives _ _ _ _
    · exact ⟨rfl, rfl⟩
  rw [storeChunk]
  cases first : (if blockOffset ≠ 0 ∨ length < 512 then
      fs.ata.readSectors fs.mountedDrive (dataStart + block) 1 Bytes.zero else ((0 : Int), Bytes.zero, fs.ata)) with
  | mk ret rest =>
    rw [first] at start
    dsimp only at start ⊢
    split
    · exact cacheKept_ata start
    · have both := start.trans (rest.2.writeSectors_drives fs.mountedDrive (dataStart + block) 1
        (rest.1.copy blockOffset source moved length))
      split <;> exact cacheKept_ata both

end Turns

/-- The loop of `diskfs_read` ends at this pointer, if it gets that far. -/
def Ends (inode : Inode) (index : Nat) : Prop := index = directBlocks ∨ inode.block index = 0

instance (inode : Inode) (index : Nat) : Decidable (Ends inode index) := inferInstanceAs (Decidable (_ ∨ _))

section ReadLoop

variable {inode : Inode} {offset size : Word}

/-- The loop of `diskfs_read` moves no more than it is asked for, and nothing
from behind a pointer that ends it. -/
theorem readLoop_stops {turns bytesRead : Nat} (within : offset.toNat + bytesRead ≤ 6144) (progress : bytesRead ≤ size.toNat)
    (positive : 1 ≤ turns) (enough : 13 ≤ turns + (offset.toNat + bytesRead) / 512 ∨ size.toNat ≤ bytesRead)
    (fs : Diskfs) (buffer : Bytes) :
    ∃ ret result after, readLoop inode offset size turns fs bytesRead buffer = some (ret, result, after) ∧
      ret ≤ size.toNat ∧ ∀ index, Ends inode index → (offset.toNat + bytesRead) / 512 ≤ index →
        offset.toNat + ret ≤ max (512 * index) (offset.toNat + bytesRead) := by
  induction turns generalizing fs bytesRead buffer with
  | zero => omega
  | succ turns ih =>
    have stays (index : Nat) : (offset.toNat : Int) + (bytesRead : Nat) ≤ max (512 * index) (offset.toNat + bytesRead) :=
      by omega
    rw [readLoop, position_eq (by omega)]
    by_cases done : size.toNat ≤ bytesRead
    · rw [if_pos done]
      exact ⟨_, _, _, rfl, by omega, fun index _ _ => stays index⟩
    rw [if_neg done]
    by_cases past : directBlocks ≤ (offset.toNat + bytesRead) / 512
    · rw [if_pos past]
      exact ⟨_, _, _, rfl, by omega, fun index _ _ => stays index⟩
    rw [if_neg past]
    by_cases hole : inode.block ((offset.toNat + bytesRead) / 512) = 0
    · rw [if_pos hole]
      exact ⟨_, _, _, rfl, by omega, fun index _ _ => stays index⟩
    rw [if_neg hole]
    dsimp only
    split
    · exact ⟨_, _, _, rfl, by omega, fun index _ _ => by omega⟩
    · have limit : (offset.toNat + bytesRead) / 512 < 12 := Nat.lt_of_not_le past
      obtain ⟨moves, inside, block, boundary⟩ :=
        @chunk_spec (offset.toNat + bytesRead) (size.toNat - bytesRead) (by omega)
      obtain ⟨ret, result, after, call, upper, stop⟩ :=
        ih (by omega : offset.toNat + (bytesRead + chunk (offset.toNat + bytesRead) (size.toNat - bytesRead)) ≤ 6144)
          (by omega) (by omega) (by omega) _ _
      refine ⟨ret, result, after, call, upper, ?_⟩
      intro index ends lower
      have further : (offset.toNat + bytesRead) / 512 ≠ index := by
        rintro rfl
        rcases ends with last | zero
        · rw [directBlocks] at last
          omega
        · exact hole zero
      have bound := stop index ends (by omega)
      omega

/-- With transfers that work it gets to the first such pointer. -/
theorem readLoop_reaches {fs : Diskfs} {turns bytesRead index : Nat} (working : fs.ata.Working fs.mountedDrive)
    (last : index ≤ directBlocks) (large : 6144 ≤ size.toNat + offset.toNat)
    (pointers : ∀ other, offset.toNat / 512 ≤ other → other < index → inode.block other ≠ 0)
    (within : offset.toNat + bytesRead ≤ 6144) (enough : 13 ≤ turns + (offset.toNat + bytesRead) / 512) (buffer : Bytes)
    {ret : Int} {result : Bytes} {after : Diskfs}
    (call : readLoop inode offset size turns fs bytesRead buffer = some (ret, result, after)) :
    (bytesRead : Int) ≤ ret ∧ 512 * index ≤ offset.toNat + ret := by
  induction turns generalizing fs bytesRead buffer with
  | zero => cases call
  | succ turns ih =>
    rw [directBlocks] at last
    rw [readLoop, position_eq (by omega)] at call
    by_cases done : size.toNat ≤ bytesRead
    · rw [if_pos done] at call
      cases call
      omega
    rw [if_neg done] at call
    by_cases past : directBlocks ≤ (offset.toNat + bytesRead) / 512
    · rw [if_pos past] at call
      cases call
      rw [directBlocks] at past
      omega
    rw [if_neg past] at call
    by_cases hole : inode.block ((offset.toNat + bytesRead) / 512) = 0
    · rw [if_pos hole] at call
      cases call
      have beyond : index ≤ (offset.toNat + bytesRead) / 512 := by
        by_contra before
        exact pointers _ (by omega) (by omega) hole
      omega
    · rw [if_neg hole, working.readSectors Nat.one_ne_zero] at call
      dsimp only at call
      rw [if_neg (by decide)] at call
      have limit : (offset.toNat + bytesRead) / 512 < 12 := Nat.lt_of_not_le past
      obtain ⟨moves, inside, block, boundary⟩ :=
        @chunk_spec (offset.toNat + bytesRead) (size.toNat - bytesRead) (by omega)
      have rest := @ih { fs with ata := fs.ata.tick }
        (bytesRead + chunk (offset.toNat + bytesRead) (size.toNat - bytesRead)) working.tick (by omega) (by omega) _ call
      omega

end ReadLoop

/-- `diskfs_read` returns no more bytes than there are behind the offset, and
no more than it was asked for. -/
def ReadStops (fs : Diskfs) (ino : Word) (length : Nat) (offset size : Word) : Prop :=
  ∀ buffer, ∃ ret result after, fs.read ino buffer offset size = some (ret, result, after) ∧
    ret ≤ (length - offset.toNat : Nat) ∧ ret ≤ size.toNat

/-- The offset is behind the end, its sum with the size does not wrap, or the
loop ends inside the file by itself. -/
def ReadFits (inode : Inode) (offset size : Word) : Prop :=
  inode.size.toNat ≤ offset.toNat ∨ offset.toNat + size.toNat < 2 ^ 32 ∨
    ∃ index ≤ directBlocks, offset.toNat / 512 ≤ index ∧ Ends inode index ∧ 512 * index ≤ inode.size.toNat

section Read

variable {fs mid : Diskfs} {ino : Word} {inode : Inode} {offset size : Word}

theorem read_loaded (mounted : fs.mountedDrive ≠ 0xFF) (loaded : fs.readInode fs.mountedDrive ino = some (.ok inode, mid))
    (buffer : Bytes) :
    fs.read ino buffer offset size =
      if offset ≥ inode.size then some (0, buffer, mid)
      else readLoop inode offset (if offset + size > inode.size then inode.size - offset else size) maxTurns mid 0 buffer := by
  rw [read, if_neg mounted, loaded]
  rfl

theorem readStops_of_fits (mounted : fs.mountedDrive ≠ 0xFF)
    (loaded : fs.readInode fs.mountedDrive ino = some (.ok inode, mid)) (small : inode.size.toNat ≤ 6144)
    (fits : ReadFits inode offset size) : fs.ReadStops ino inode.size.toNat offset size := by
  intro buffer
  rw [read_loaded mounted loaded]
  by_cases behind : offset ≥ inode.size
  · rw [if_pos behind]
    exact ⟨0, buffer, mid, rfl, by omega, by omega⟩
  rw [if_neg behind]
  rw [ge_iff_le, BitVec.le_def] at behind
  obtain ⟨ret, result, after, call, upper, stop⟩ := @readLoop_stops inode offset
    (if offset + size > inode.size then inode.size - offset else size) maxTurns 0 (by omega) (Nat.zero_le _) (by decide)
    (.inl (Nat.le_add_right _ _)) mid buffer
  refine ⟨ret, result, after, call, ?_⟩
  by_cases cut : offset + size > inode.size
  · rw [if_pos cut, BitVec.toNat_sub] at upper
    rw [gt_iff_lt, BitVec.lt_def, BitVec.toNat_add] at cut
    omega
  · rw [if_neg cut] at upper
    rw [gt_iff_lt, BitVec.lt_def, BitVec.toNat_add] at cut
    rcases fits with outside | unwrapped | ⟨index, _, lower, ends, inside⟩
    · omega
    · omega
    · have bound := stop index ends lower
      omega

/-- With transfers that work the loop runs past the end otherwise. -/
theorem fits_of_readStops (working : fs.ata.Working fs.mountedDrive) (mounted : fs.mountedDrive ≠ 0xFF)
    (loaded : fs.readInode fs.mountedDrive ino = some (.ok inode, mid)) (small : inode.size.toNat ≤ 6144)
    (stops : fs.ReadStops ino inode.size.toNat offset size) : ReadFits inode offset size := by
  by_contra wrong
  rw [ReadFits, not_or, not_or, not_exists] at wrong
  obtain ⟨before, wraps, nowhere⟩ := wrong
  obtain ⟨_, drives, sameDrive, _, _⟩ := seen_of_readInode loaded
  have midWorking : mid.ata.Working mid.mountedDrive := sameDrive ▸ drives.working working
  obtain ⟨ret, result, after, call, upper, _⟩ := stops Bytes.zero
  have exists_end : ∃ index, offset.toNat / 512 ≤ index ∧ Ends inode index :=
    ⟨directBlocks, by rw [directBlocks]; omega, .inl rfl⟩
  have last : Nat.find exists_end ≤ directBlocks := Nat.find_min' exists_end ⟨by rw [directBlocks]; omega, .inl rfl⟩
  obtain ⟨lower, ends⟩ := Nat.find_spec exists_end
  have beyond : ¬ 512 * Nat.find exists_end ≤ inode.size.toNat := fun inside => nowhere _ ⟨last, lower, ends, inside⟩
  have pointers (other : Nat) (from_here : offset.toNat / 512 ≤ other) (earlier : other < Nat.find exists_end) :
      inode.block other ≠ 0 := fun hole => Nat.find_min exists_end earlier ⟨from_here, .inr hole⟩
  have uncut : ¬ offset + size > inode.size := by
    rw [gt_iff_lt, BitVec.lt_def, BitVec.toNat_add]
    omega
  rw [read_loaded mounted loaded, if_neg (by rw [ge_iff_le, BitVec.le_def]; exact before), if_neg uncut] at call
  have reached := readLoop_reaches midWorking last (by omega) pointers (by omega) (by rw [maxTurns, directBlocks]; omega)
    Bytes.zero call
  omega

end Read

section WriteLoop

variable {fs after : Diskfs} {inode : Inode} {source : Bytes} {offset size : Word}

/-- What the loop of `diskfs_write` leaves as it was, and how far it gets. -/
theorem writeLoop_kept {turns moved : Nat} (within : offset.toNat + moved ≤ 6144 ∨ moved = 0)
    (progress : moved ≤ size.toNat) {found : Option (Inode × Nat)}
    (call : writeLoop source offset size turns fs inode moved = some (found, after)) :
    CacheKept fs after ∧ ∀ final count, found = some (final, count) →
      final.size = inode.size ∧ moved ≤ count ∧ count ≤ size.toNat ∧ (count = moved ∨ offset.toNat + count ≤ 6144) := by
  induction turns generalizing fs inode moved with
  | zero => cases call
  | succ turns ih =>
    have small := offset.isLt
    have stays (final : Inode) (count : Nat) (same : some (inode, moved) = some (final, count)) :
        final.size = inode.size ∧ moved ≤ count ∧ count ≤ size.toNat ∧ (count = moved ∨ offset.toNat + count ≤ 6144) := by
      cases same
      exact ⟨rfl, Nat.le_refl _, progress, .inl rfl⟩
    rw [writeLoop, position_eq (by omega)] at call
    by_cases done : size.toNat ≤ moved
    · rw [if_pos done] at call
      cases call
      exact ⟨.refl _, stays⟩
    rw [if_neg done] at call
    by_cases past : directBlocks ≤ (offset.toNat + moved) / 512
    · rw [if_pos past] at call
      cases call
      exact ⟨.refl _, stays⟩
    rw [if_neg past] at call
    have limit : (offset.toNat + moved) / 512 < 12 := Nat.lt_of_not_le past
    obtain ⟨moves, inside, block, _⟩ := @chunk_spec (offset.toNat + moved) (size.toNat - moved) (by omega)
    split at call
    · cases call
    · next claim =>
      cases call
      exact ⟨(claimBlock_kept limit claim).1, stays⟩
    · next new mid claim =>
      obtain ⟨claimed, sameSize⟩ := claimBlock_kept limit claim
      have stored := storeChunk_kept mid (new.block ((offset.toNat + moved) / 512)) ((offset.toNat + moved) % 512) source
        moved (chunk (offset.toNat + moved) (size.toNat - moved))
      split at call
      · next store =>
        rw [store] at stored
        obtain ⟨kept, result⟩ := ih (by omega) (by omega) call
        refine ⟨(claimed.trans stored).trans kept, ?_⟩
        intro final count same
        obtain ⟨finalSize, lower, upper, reach⟩ := result final count same
        exact ⟨finalSize.trans (sameSize new rfl), by omega, upper, by omega⟩
      · next store =>
        rw [store] at stored
        cases call
        exact ⟨claimed.trans stored, fun _ _ impossible => by cases impossible⟩

/-- The first turn moves something unless there is nothing to do or no room. -/
theorem writeLoop_starts {turns : Nat} (some_bytes : size.toNat ≠ 0) (before : offset.toNat < 6144)
    (room : inode.block (offset.toNat / 512) ≠ 0 ∨
      bitmapFindFree fs.blockBitmap fs.superblock.totalBlocks ≠ some (-1)) {final : Inode} {count : Nat}
    (call : writeLoop source offset size turns fs inode 0 = some (some (final, count), after)) : 0 < count := by
  cases turns with
  | zero => cases call
  | succ turns =>
    obtain ⟨moves, inside, block, _⟩ := @chunk_spec (offset.toNat + 0) (size.toNat - 0) (by omega)
    rw [writeLoop, position_eq (by omega), if_neg (by omega), if_neg (by rw [directBlocks]; omega)] at call
    split at call
    · cases call
    · next claim =>
      obtain ⟨hole, full⟩ := claimBlock_none_iff.mp ⟨_, claim⟩
      rcases room with pointer | free
      · exact absurd hole pointer
      · exact absurd full free
    · split at call
      · obtain ⟨_, result⟩ := writeLoop_kept (by omega) (by omega) call
        obtain ⟨_, lower, _, _⟩ := result final count rfl
        omega
      · cases call

/-- Else it is the last one. -/
theorem writeLoop_idle {turns : Nat} (idle : size.toNat = 0 ∨ 6144 ≤ offset.toNat ∨
      inode.block (offset.toNat / 512) = 0 ∧ bitmapFindFree fs.blockBitmap fs.superblock.totalBlocks = some (-1)) :
    writeLoop source offset size (turns + 1) fs inode 0 = some (some (inode, 0), fs) := by
  have small := offset.isLt
  rw [writeLoop, position_eq (by omega), Nat.add_zero]
  by_cases done : size.toNat ≤ 0
  · rw [if_pos done]
  rw [if_neg done]
  by_cases past : directBlocks ≤ offset.toNat / 512
  · rw [if_pos past]
  rw [if_neg past]
  rw [directBlocks] at past
  rcases idle with nothing | beyond | ⟨hole, full⟩
  · omega
  · omega
  · rw [claimBlock_full hole full]

/-- It comes to its end. -/
theorem writeLoop_returns {turns moved : Nat} (total : fs.superblock.totalBlocks.toNat ≤ maxBlocks)
    (small : offset.toNat + moved < 2 ^ 32) (positive : 1 ≤ turns)
    (enough : 13 ≤ turns + (offset.toNat + moved) / 512 ∨ size.toNat ≤ moved) :
    ∃ found after, writeLoop source offset size turns fs inode moved = some (found, after) := by
  induction turns generalizing fs inode moved with
  | zero => omega
  | succ turns ih =>
    rw [writeLoop, position_eq small]
    by_cases done : size.toNat ≤ moved
    · rw [if_pos done]
      exact ⟨_, _, rfl⟩
    rw [if_neg done]
    by_cases past : directBlocks ≤ (offset.toNat + moved) / 512
    · rw [if_pos past]
      exact ⟨_, _, rfl⟩
    rw [if_neg past]
    have limit : (offset.toNat + moved) / 512 < 12 := Nat.lt_of_not_le past
    obtain ⟨moves, inside, block, boundary⟩ := @chunk_spec (offset.toNat + moved) (size.toNat - moved) (by omega)
    split
    · next claim =>
      obtain ⟨result, returns⟩ := claimBlock_returns total inode ((offset.toNat + moved) / 512)
      rw [returns] at claim
      cases claim
    · exact ⟨_, _, rfl⟩
    · next new mid claim =>
      have stored := storeChunk_kept mid (new.block ((offset.toNat + moved) / 512)) ((offset.toNat + moved) % 512) source
        moved (chunk (offset.toNat + moved) (size.toNat - moved))
      split
      · next store =>
        rw [store] at stored
        apply ih
        · rw [stored.totalBlocks, (claimBlock_kept limit claim).1.totalBlocks]
          exact total
        · omega
        · omega
        · omega
      · exact ⟨_, _, rfl⟩

/-- With transfers that work it does not end with -1. -/
theorem writeLoop_finishes {turns moved : Nat} {found : Option (Inode × Nat)} (working : fs.ata.Working fs.mountedDrive)
    (call : writeLoop source offset size turns fs inode moved = some (found, after)) :
    ∃ done, found = some done := by
  induction turns generalizing fs inode moved with
  | zero => cases call
  | succ turns ih =>
    rw [writeLoop] at call
    split at call
    · cases call
      exact ⟨_, rfl⟩
    split at call
    · cases call
      exact ⟨_, rfl⟩
    next bound =>
    split at call
    · cases call
    · cases call
      exact ⟨_, rfl⟩
    · next new mid claim =>
      have kept := (claimBlock_kept (Nat.lt_of_not_le bound) claim).1
      have midWorking : mid.ata.Working mid.mountedDrive := kept.mountedDrive ▸ kept.drives.working working
      have stored := storeChunk_kept mid (new.block ((offset + BitVec.ofNat 32 moved).toNat / 512))
        ((offset + BitVec.ofNat 32 moved).toNat % 512) source moved
        (chunk (offset + BitVec.ofNat 32 moved).toNat (size.toNat - moved))
      obtain ⟨transfers, store⟩ := storeChunk_works midWorking (new.block ((offset + BitVec.ofNat 32 moved).toNat / 512))
        ((offset + BitVec.ofNat 32 moved).toNat % 512) source moved
        (chunk (offset + BitVec.ofNat 32 moved).toNat (size.toNat - moved))
      rw [store] at call stored
      exact ih (stored.mountedDrive ▸ stored.drives.working midWorking) call

end WriteLoop

/-- After a `diskfs_write` that answered `ret` the inode is as long as what was
written reaches, and not longer than a file may be. -/
def Lengthened (after : Diskfs) (ino : Word) (length : Nat) (offset : Word) (ret : Int) : Prop :=
  ∃ stored, after.readInode after.mountedDrive ino = some (.ok stored, after) ∧ stored.size.toNat ≤ 6144 ∧
    (0 < ret → (stored.size.toNat : Int) = max (length : Int) (offset.toNat + ret)) ∧
    (ret = 0 → stored.size.toNat = length)

def WriteLengthens (fs : Diskfs) (ino : Word) (length : Nat) (offset size : Word) : Prop :=
  ∀ source now, ∃ ret after, fs.write ino source offset size now = some (ret, after) ∧
    Lengthened after ino length offset ret

/-- The record does not reach behind its sector, and nothing is written from
behind the end unless the first byte is: it lies inside the greatest file and
has a block or is given one. -/
def WriteFits (fs : Diskfs) (ino : Word) (inode : Inode) (offset size : Word) : Prop :=
  ino.toNat % 4 ≠ 3 ∧ (offset.toNat ≤ inode.size.toNat ∨
    size.toNat ≠ 0 ∧ offset.toNat < 6144 ∧ (inode.block (offset.toNat / 512) ≠ 0 ∨
      bitmapFindFree fs.blockBitmap fs.superblock.totalBlocks ≠ some (-1)))

/-- All that can be written lies inside the file. -/
def Overwrites (inode : Inode) (offset size : Word) : Prop :=
  offset.toNat ≤ inode.size.toNat ∧ min (offset.toNat + size.toNat) 6144 ≤ inode.size.toNat

section Write

variable {fs mid after : Diskfs} {drive : Byte} {ino : Word} {inode : Inode} {source : Bytes} {offset size now : Word}

theorem cutSize_toNat (offset size : Word) :
    (cutSize offset size).toNat ≤ size.toNat ∨ 6144 ≤ offset.toNat := by
  have greatest : maxFileSize.toNat = 6144 := rfl
  rw [cutSize]
  split
  · next cut =>
    rw [gt_iff_lt, BitVec.lt_def, BitVec.toNat_add, greatest] at cut
    rw [BitVec.toNat_sub, greatest]
    omega
  · exact .inl (Nat.le_refl _)

theorem cutSize_eq_zero (before : offset.toNat < 6144) : (cutSize offset size).toNat = 0 ↔ size.toNat = 0 := by
  have greatest : maxFileSize.toNat = 6144 := rfl
  rw [cutSize]
  split
  · next cut =>
    rw [gt_iff_lt, BitVec.lt_def, BitVec.toNat_add, greatest] at cut
    rw [BitVec.toNat_sub, greatest]
    omega
  · exact Iff.rfl

theorem write_loaded (mounted : fs.mountedDrive ≠ 0xFF) (loaded : fs.readInode fs.mountedDrive ino = some (.ok inode, mid)) :
    fs.write ino source offset size now =
      (writeLoop source offset (cutSize offset size) maxTurns mid inode 0).bind fun result =>
        result.1.elim (some (-1, result.2)) fun done =>
          (result.2.writeInode result.2.mountedDrive ino (finished done.1 (offset + BitVec.ofNat 32 done.2) now)).map
            fun stored => ((done.2 : Int), stored.2) := by
  rw [write, if_neg mounted, loaded]
  simp only [Option.bind_eq_bind, Option.bind_some]
  rw [cutSize]
  congr 1
  funext result
  obtain ⟨found, last⟩ := result
  cases found with
  | none => rfl
  | some done =>
    dsimp only [Option.elim]
    rw [finished]
    cases last.writeInode last.mountedDrive ino _ <;> rfl

/-- From a record that was read: a transfer of the loop fails, or the record is
written back, whatever comes of that. -/
theorem write_loaded_cases (mounted : fs.mountedDrive ≠ 0xFF) (loaded : fs.readInode fs.mountedDrive ino = some (.ok inode, mid))
    {ret : Int} (call : fs.write ino source offset size now = some (ret, after)) :
    (writeLoop source offset (cutSize offset size) maxTurns mid inode 0 = some (none, after) ∧ ret = -1) ∨
    ∃ final moved last stored,
      writeLoop source offset (cutSize offset size) maxTurns mid inode 0 = some (some (final, moved), last) ∧
      ret = (moved : Nat) ∧
      last.writeInode last.mountedDrive ino (finished final (offset + BitVec.ofNat 32 moved) now) = some (stored, after) := by
  rw [write_loaded mounted loaded] at call
  obtain ⟨⟨found, last⟩, loop, finish⟩ := Option.bind_eq_some_iff.mp call
  cases found with
  | none =>
    cases finish
    exact .inl ⟨loop, rfl⟩
  | some done =>
    obtain ⟨⟨stored, _⟩, record, result⟩ := Option.map_eq_some_iff.mp finish
    cases result
    exact .inr ⟨done.1, done.2, last, stored, loop, rfl, record⟩

/-- Every way of `diskfs_write` to its result. -/
theorem write_cases {ret : Int} (call : fs.write ino source offset size now = some (ret, after)) :
    ((fs.mountedDrive = 0xFF ∧ after = fs ∨ ∃ code, fs.readInode fs.mountedDrive ino = some (.error code, after)) ∧ ret = -1) ∨
    (fs.mountedDrive ≠ 0xFF ∧ ∃ inode mid, fs.readInode fs.mountedDrive ino = some (.ok inode, mid) ∧
      ((writeLoop source offset (cutSize offset size) maxTurns mid inode 0 = some (none, after) ∧ ret = -1) ∨
      ∃ final moved last stored,
        writeLoop source offset (cutSize offset size) maxTurns mid inode 0 = some (some (final, moved), last) ∧
        ret = (moved : Nat) ∧
        last.writeInode last.mountedDrive ino (finished final (offset + BitVec.ofNat 32 moved) now) = some (stored, after))) := by
  by_cases unmounted : fs.mountedDrive = 0xFF
  · rw [write, if_pos unmounted] at call
    cases call
    exact .inl ⟨.inl ⟨unmounted, rfl⟩, rfl⟩
  cases load : fs.readInode fs.mountedDrive ino with
  | none =>
    rw [write, if_neg unmounted, load] at call
    cases call
  | some result =>
    obtain ⟨loaded, mid⟩ := result
    cases loaded with
    | error code =>
      rw [write, if_neg unmounted, load] at call
      cases call
      exact .inl ⟨.inr ⟨code, rfl⟩, rfl⟩
    | ok inode => exact .inr ⟨unmounted, inode, mid, rfl, write_loaded_cases unmounted load call⟩

theorem writeInode_returns (slot : ino.toNat % 4 ≠ 3) (new : Inode) : ∃ result, fs.writeInode drive ino new = some result := by
  unfold writeInode
  split
  · exact ⟨_, rfl⟩
  · dsimp only
    split
    · exact ⟨_, rfl⟩
    · rw [if_neg (slot_fits.mpr slot)]
      split
      · exact ⟨_, rfl⟩
      · split <;> exact ⟨_, rfl⟩

theorem lengthened_of_fits (mounted : fs.mountedDrive ≠ 0xFF)
    (loaded : fs.readInode fs.mountedDrive ino = some (.ok inode, mid)) (small : inode.size.toNat ≤ 6144)
    (fits : fs.WriteFits ino inode offset size) (stores : fs.ata.Working fs.mountedDrive ∨ Overwrites inode offset size)
    {ret : Int} (call : fs.write ino source offset size now = some (ret, after)) :
    Lengthened after ino inode.size.toNat offset ret := by
  obtain ⟨seen, drives, sameDrive, superblock, bitmap⟩ := seen_of_readInode loaded
  rcases write_loaded_cases mounted loaded call with ⟨loop, rfl⟩ | ⟨final, count, last, stored, loop, rfl, store⟩
  · have lastSeen := seen.kept (writeLoop_kept (.inr rfl) (Nat.zero_le _) loop).1
    refine ⟨inode, lastSeen.readInode _, small, ?_, ?_⟩ <;> intro impossible <;> omega
  · obtain ⟨kept, progress⟩ := writeLoop_kept (.inr rfl) (Nat.zero_le _) loop
    have lastSeen := seen.kept kept
    obtain ⟨sameSize, _, upper, reach⟩ := progress final count rfl
    obtain ⟨_, storedSeen⟩ := lastSeen.writeInode store
    refine ⟨_, storedSeen.readInode _, ?_⟩
    have bound := offset.isLt
    have cut := cutSize_toNat offset size
    by_cases ok : stored = 0
    · subst ok
      have started : offset.toNat ≤ inode.size.toNat ∨ 0 < count := by
        rcases fits.2 with inside | ⟨some_bytes, before, room⟩
        · exact .inl inside
        · rw [← bitmap, ← superblock] at room
          exact .inr (writeLoop_starts (mt (cutSize_eq_zero before).mp some_bytes) before room loop)
      rw [if_pos rfl, finished_size, sameSize]
      have last_position : (offset + BitVec.ofNat 32 count).toNat = offset.toNat + count := position_eq (by omega)
      split
      · next longer =>
        rw [gt_iff_lt, BitVec.lt_def, last_position] at longer
        rw [last_position]
        refine ⟨?_, ?_, ?_⟩ <;> omega
      · next longer =>
        rw [gt_iff_lt, BitVec.lt_def, last_position] at longer
        refine ⟨small, ?_, ?_⟩ <;> omega
    · rw [if_neg ok]
      rcases stores with working | ⟨inside, within⟩
      · -- A drive that works stores the record.
        exfalso
        have lastWorking : last.ata.Working last.mountedDrive := by
          rw [kept.mountedDrive, sameDrive]
          exact kept.drives.working (drives.working working)
        rw [writeInode_eq lastWorking seen.1, if_neg fits.1] at store
        cases store
        exact ok rfl
      · refine ⟨small, ?_, fun _ => rfl⟩
        omega

/-- The record in the last slot of a sector is not written there. -/
theorem slot_of_write (working : fs.ata.Working fs.mountedDrive) (mounted : fs.mountedDrive ≠ 0xFF)
    (loaded : fs.readInode fs.mountedDrive ino = some (.ok inode, mid)) {ret : Int}
    (call : fs.write ino source offset size now = some (ret, after)) : ino.toNat % 4 ≠ 3 := by
  intro slot
  obtain ⟨seen, drives, sameDrive, _, _⟩ := seen_of_readInode loaded
  have midWorking : mid.ata.Working mid.mountedDrive := sameDrive ▸ drives.working working
  rcases write_loaded_cases mounted loaded call with ⟨loop, _⟩ | ⟨_, _, last, _, loop, _, store⟩
  · obtain ⟨_, impossible⟩ := writeLoop_finishes midWorking loop
    cases impossible
  · have kept := (writeLoop_kept (.inr rfl) (Nat.zero_le _) loop).1
    have lastWorking : last.ata.Working last.mountedDrive := kept.mountedDrive ▸ kept.drives.working midWorking
    rw [writeInode_eq lastWorking seen.1, if_pos slot] at store
    cases store

/-- With transfers that work the record stored is too long otherwise. -/
theorem fits_of_writeLengthens (working : fs.ata.Working fs.mountedDrive) (mounted : fs.mountedDrive ≠ 0xFF)
    (loaded : fs.readInode fs.mountedDrive ino = some (.ok inode, mid))
    (lengthens : fs.WriteLengthens ino inode.size.toNat offset size) : fs.WriteFits ino inode offset size := by
  obtain ⟨_, _, returned, _⟩ := lengthens Bytes.zero 0
  have slot := slot_of_write working mounted loaded returned
  refine ⟨slot, ?_⟩
  by_contra wrong
  rw [not_or] at wrong
  obtain ⟨behind, idle⟩ := wrong
  obtain ⟨seen, drives, sameDrive, superblock, bitmap⟩ := seen_of_readInode loaded
  have midWorking : mid.ata.Working mid.mountedDrive := sameDrive ▸ drives.working working
  have loop : writeLoop Bytes.zero offset (cutSize offset size) maxTurns mid inode 0 = some (some (inode, 0), mid) := by
    apply writeLoop_idle
    rw [bitmap, superblock]
    by_cases before : offset.toNat < 6144
    · rw [cutSize_eq_zero before]
      by_cases nothing : size.toNat = 0
      · exact .inl nothing
      · right
        right
        by_contra room
        rw [not_and_or] at room
        exact idle ⟨nothing, before, room⟩
    · exact .inr (.inl (Nat.le_of_not_lt before))
  have store := writeInode_eq midWorking seen.1 (finished inode (offset + BitVec.ofNat 32 0) 0)
  rw [if_neg slot] at store
  have call : fs.write ino Bytes.zero offset size 0 =
      some (0, mid.inodeWritten mid.mountedDrive ino (finished inode (offset + BitVec.ofNat 32 0) 0)) := by
    rw [write_loaded mounted loaded, loop, Option.bind_some]
    dsimp only [Option.elim]
    rw [store]
    rfl
  obtain ⟨_, _, again, stored, read, _, _, same⟩ := lengthens Bytes.zero 0
  rw [call] at again
  cases again
  obtain ⟨_, storedSeen⟩ := seen.writeInode store
  rw [if_pos rfl] at storedSeen
  rw [storedSeen.readInode] at read
  cases read
  have size_stored := same rfl
  have position : (offset + BitVec.ofNat 32 0).toNat = offset.toNat + 0 := position_eq offset.isLt
  rw [finished_size, if_pos (by rw [gt_iff_lt, BitVec.lt_def, position]; omega), position] at size_stored
  omega

/-- A call returns unless `bitmap_find_free` or `write_inode` leaves an object. -/
theorem write_returns (mounted : fs.mountedDrive ≠ 0xFF) (loaded : fs.readInode fs.mountedDrive ino = some (.ok inode, mid))
    (total : fs.superblock.totalBlocks.toNat ≤ maxBlocks) (slot : ino.toNat % 4 ≠ 3) (source : Bytes)
    (offset size now : Word) : ∃ ret after, fs.write ino source offset size now = some (ret, after) := by
  obtain ⟨_, _, _, superblock, _⟩ := seen_of_readInode loaded
  obtain ⟨found, last, loop⟩ := @writeLoop_returns mid inode source offset (cutSize offset size) maxTurns 0
    (superblock ▸ total) offset.isLt (by decide) (.inl (Nat.le_add_right _ _))
  rw [write_loaded mounted loaded, loop, Option.bind_some]
  cases found with
  | none => exact ⟨_, _, rfl⟩
  | some done =>
    obtain ⟨result, store⟩ := @writeInode_returns last last.mountedDrive ino slot
      (finished done.1 (offset + BitVec.ofNat 32 done.2) now)
    refine ⟨done.2, result.2, ?_⟩
    dsimp only [Option.elim]
    rw [store]
    rfl

theorem writeLengthens_of_fits (mounted : fs.mountedDrive ≠ 0xFF)
    (loaded : fs.readInode fs.mountedDrive ino = some (.ok inode, mid)) (small : inode.size.toNat ≤ 6144)
    (total : fs.superblock.totalBlocks.toNat ≤ maxBlocks) (fits : fs.WriteFits ino inode offset size)
    (stores : fs.ata.Working fs.mountedDrive ∨ Overwrites inode offset size) :
    fs.WriteLengthens ino inode.size.toNat offset size := by
  intro source now
  obtain ⟨ret, after, call⟩ := write_returns mounted loaded total fits.1 source offset size now
  exact ⟨ret, after, call, lengthened_of_fits mounted loaded small fits stores call⟩

/-- `diskfs_read` stops at the end of the file, and `diskfs_write` moves it to
the end of what it has written, if their calls fit; with transfers that work
only then. What a search of the block bitmap finds is inside it if the total
is. -/
theorem end_of_file_kept (mounted : fs.mountedDrive ≠ 0xFF) (loaded : fs.readInode fs.mountedDrive ino = some (.ok inode, mid))
    (small : inode.size.toNat ≤ 6144) (offset size : Word) :
    (ReadFits inode offset size → fs.ReadStops ino inode.size.toNat offset size) ∧
      (fs.WriteFits ino inode offset size → fs.ata.Working fs.mountedDrive ∨ Overwrites inode offset size →
        ∀ source now ret after, fs.write ino source offset size now = some (ret, after) →
          Lengthened after ino inode.size.toNat offset ret) ∧
      (fs.superblock.totalBlocks.toNat ≤ maxBlocks →
        (fs.WriteFits ino inode offset size → fs.ata.Working fs.mountedDrive ∨ Overwrites inode offset size →
          fs.WriteLengthens ino inode.size.toNat offset size) ∧
        (fs.ata.Working fs.mountedDrive →
          (fs.ReadStops ino inode.size.toNat offset size ∧ fs.WriteLengthens ino inode.size.toNat offset size ↔
            ReadFits inode offset size ∧ fs.WriteFits ino inode offset size)) ∧
        (ino.toNat % 4 ≠ 3 → ∀ source now, ∃ ret after, fs.write ino source offset size now = some (ret, after))) := by
  have reads := @readStops_of_fits fs mid ino inode offset size mounted loaded small
  refine ⟨reads, fun fits stores _ _ _ _ => lengthened_of_fits mounted loaded small fits stores, fun total => ?_⟩
  have writes := @writeLengthens_of_fits fs mid ino inode offset size mounted loaded small total
  refine ⟨writes, ?_, ?_⟩
  · intro working
    constructor
    · rintro ⟨stops, lengthens⟩
      exact ⟨fits_of_readStops working mounted loaded small stops,
        fits_of_writeLengthens working mounted loaded lengthens⟩
    · rintro ⟨readFits, writeFits⟩
      exact ⟨reads readFits, writes writeFits (.inl working)⟩
  · intro slot source now
    exact write_returns mounted loaded total slot source offset size now

end Write

/-- The first 32 bytes of the root directory of a fresh drive. -/
theorem end_of_file_kept_root : ∃ inode mid, zeroDrive.readInode zeroDrive.mountedDrive 0 = some (.ok inode, mid) ∧
    zeroDrive.ReadStops 0 inode.size.toNat 0 32 ∧ zeroDrive.WriteLengthens 0 inode.size.toNat 0 32 := by
  have check : (zeroDrive.readInode zeroDrive.mountedDrive 0).any (fun result =>
      result.1.toOption.any fun inode => decide (inode.size.toNat = 0)) = true := by decide +kernel
  obtain ⟨⟨found, mid⟩, loaded, check⟩ := (Option.any_eq_true _ _).mp check
  cases found with
  | error code => cases check
  | ok inode =>
    have empty : inode.size.toNat = 0 := of_decide_eq_true check
    have kept := end_of_file_kept (by decide +kernel) loaded (by omega) 0 32
    obtain ⟨ready, mount, consistent⟩ := @fresh_consistent (uniform 0) 0 (uniform_working 0 0 (by decide)) 0
    rw [zeroDrive_ready.2] at mount
    cases mount
    have working : zeroDrive.ata.Working zeroDrive.mountedDrive := consistent.mounted ▸ consistent.working
    have behind : inode.size.toNat ≤ (0 : Word).toNat := by omega
    have writes := (kept.2.2 (by decide +kernel)).1 ⟨by decide, .inl (Nat.zero_le _)⟩ (.inl working)
    exact ⟨inode, mid, loaded, kept.1 (.inl behind), writes⟩

/-- A file of two bytes is read from its second byte on to the end of its block
if the size is `UINT32_MAX`. -/
theorem end_of_file_passed : ¬ ∀ fs, Reachable Step zeroDrive fs → ∀ (ino : Word) (inode : Inode) (mid : Diskfs),
    fs.readInode fs.mountedDrive ino = some (.ok inode, mid) → inode.size.toNat ≤ 6144 → ∀ offset size,
    fs.ReadStops ino inode.size.toNat offset size ∧ fs.WriteLengthens ino inode.size.toNat offset size := by
  intro kept
  have check : ((createLetter 97 (by decide)).run zeroDrive).any (fun created =>
      ((Call.write 1 (fun _ => 65) 0 2 5).run created.2).any fun written =>
      ((written.2.readInode written.2.mountedDrive 1).any fun result =>
        result.1.toOption.any fun inode => decide (inode.size.toNat = 2)) &&
      (written.2.read 1 Bytes.zero 1 0xFFFFFFFF).any fun result => decide (result.1 = 511)) = true := by
    decide +kernel
  obtain ⟨⟨_, created⟩, create, check⟩ := (Option.any_eq_true _ _).mp check
  obtain ⟨⟨_, fs⟩, write, check⟩ := (Option.any_eq_true _ _).mp check
  obtain ⟨load, read⟩ := Bool.and_eq_true_iff.mp check
  obtain ⟨⟨found, mid⟩, loaded, two⟩ := (Option.any_eq_true _ _).mp load
  obtain ⟨⟨count, _, _⟩, call, passed⟩ := (Option.any_eq_true _ _).mp read
  cases found with
  | error code => cases two
  | ok inode =>
    have length : inode.size.toNat = 2 := of_decide_eq_true two
    have run : Reachable Step zeroDrive fs := (Relation.ReflTransGen.single ⟨_, _, create⟩).tail ⟨_, _, write⟩
    obtain ⟨ret, _, _, again, upper, _⟩ := (kept fs run 1 inode mid loaded (by omega) 1 0xFFFFFFFF).1 Bytes.zero
    rw [call] at again
    cases again
    have all : count = 511 := of_decide_eq_true passed
    rw [length, all] at upper
    revert upper
    decide

end Diskfs

end MexOS.Fs
