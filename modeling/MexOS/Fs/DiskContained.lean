import MexOS.Fs.Allocator
import MexOS.Fs.DiskAccess
import MexOS.Fs.Draft

/-! Which images of a drive are handled safely: those whose superblock counts no
more than the bitmaps hold and whose records point to blocks that exist. -/

namespace MexOS.Fs

open MexOS.Machine Monitored

/-- Inside a bitmap of 8192 bytes, or among the sectors for data. -/
def DiskAccess.InRange : DiskAccess → Prop
  | bitmap index => index < 8192
  | data sector => 545 ≤ sector.toNat ∧ sector.toNat < 545 + maxBlocks

theorem DiskAccess.bitmap_inRange {bit : Nat} (small : bit < maxBlocks) : InRange (bitmap (bit / 8)) := by
  change bit / 8 < 8192
  rw [maxBlocks] at small
  omega

theorem DiskAccess.data_inRange {block : Word} (small : block.toNat < maxBlocks) : InRange (data (dataStart + block)) := by
  change 545 ≤ (dataStart + block).toNat ∧ (dataStart + block).toNat < 545 + maxBlocks
  have start : dataStart.toNat = 545 := rfl
  rw [BitVec.toNat_add, start]
  rw [maxBlocks] at small ⊢
  omega

/-- No pointer of the record leads behind the last block. -/
def Inode.Pointing (inode : Inode) : Prop := ∀ index < directBlocks, (inode.block index).toNat < maxBlocks

instance (inode : Inode) : Decidable inode.Pointing := inferInstanceAs (Decidable (∀ index < directBlocks, _))

theorem Inode.Pointing.congr {inode other : Inode} (pointing : Pointing inode) (same : Bytes.Same inode other 8 56) :
    Pointing other := by
  intro index inside
  rw [directBlocks] at inside
  have word := same.word (by omega : 8 ≤ 8 + 4 * index) (by omega)
  rw [Inode.block, word]
  exact pointing index inside

theorem Inode.Pointing.setBlock {inode : Inode} (pointing : Pointing inode) {block : Nat} (small : block < maxBlocks)
    (index : Nat) : Pointing (inode.setBlock index (BitVec.ofInt 32 block)) := by
  intro other inside
  rw [Inode.setBlock, Inode.block]
  by_cases here : other = index
  · rw [here, Bytes.word_setWord, BitVec.ofInt_natCast, BitVec.toNat_ofNat]
    rw [maxBlocks] at small ⊢
    omega
  · rw [Bytes.word_setWord_of_apart (by omega)]
    exact pointing other inside

namespace Ata

variable {ata after : Ata} {drive : Byte} {lba : Word} {count : Nat} {buffer : Bytes} {ret : Int}

theorem readSectors_ok (positive : count ≠ 0) (read : ata.readSectors drive lba count buffer = (0, data, after)) :
    data = ata.load drive lba count buffer := by
  unfold readSectors at read
  split at read
  · cases read
  · split at read
    · exact (Prod.mk.inj (Prod.mk.inj read).2).1.symm
    · cases read

/-- A transfer of one sector stores it or leaves it. -/
theorem writeSectors_one (ata : Ata) (drive : Byte) (lba : Word) (buffer : Bytes) :
    (ata.writeSectors drive lba 1 buffer).2.sectors drive (sectorOf lba) = ata.sectors drive (sectorOf lba) ∨
      (ata.writeSectors drive lba 1 buffer).2.sectors drive (sectorOf lba) = buffer := by
  unfold writeSectors
  split
  · exact .inl rfl
  · split
    · exact .inl rfl
    · split
      · exact .inr (by rw [tick_sectors, store_one_self])
      · next done _ =>
        rw [tick_sectors]
        by_cases none : done = 0
        · refine .inl (store_outside _ _ _ _ _ ?_)
          omega
        · have one : min done 1 = 1 := by omega
          rw [one]
          exact .inr (store_one_self _ _ _ _)

end Ata

namespace Diskfs

/-- The superblock counts no more blocks than the bitmap has bits, and no more
inodes unless one is free behind the records; the records point to blocks that
exist. -/
structure SafeImage (fs : Diskfs) (drive : Byte) : Prop where
  totalBlocks : (Superblock.totalBlocks (fs.ata.sectors drive 0)).toNat ≤ maxBlocks
  inodes : (Superblock.totalInodes (fs.ata.sectors drive 0)).toNat ≤ maxBlocks ∨
    ∃ bit, maxInodes ≤ bit ∧ bit < maxBlocks ∧ Bitmap.test (fs.ata.load drive 1 16 Bytes.zero) bit = false
  records : ∀ ino < maxInodes, Inode.Pointing (fs.onDisk drive ino)

/-- The same of a mounted drive and its cache, while it is used. -/
structure Contained (drive : Byte) (fs : Diskfs) : Prop where
  mounted : fs.mountedDrive = drive
  totalBlocks : fs.superblock.totalBlocks.toNat ≤ maxBlocks
  inodes : fs.superblock.totalInodes.toNat ≤ maxBlocks ∨
    ∃ bit, maxInodes ≤ bit ∧ bit < maxBlocks ∧ fs.inodeBitmap.test bit = false
  onDisk : ∀ ino < maxInodes, Inode.Pointing (fs.onDisk drive ino)
  cached : ∀ i < 8, fs.inodeCacheValid i = true → Inode.Pointing (fs.inodeCache i)

namespace Contained

variable {fs : Diskfs} {drive : Byte} {ino : Word} {inode : Inode} {ata : Ata}

/-- Transfers outside the table of inodes. -/
theorem transferred (contained : Contained drive fs)
    (same : ∀ sector, 33 ≤ sector → sector < 161 → ata.sectors drive sector = fs.ata.sectors drive sector) :
    Contained drive { fs with ata } := by
  refine ⟨contained.mounted, contained.totalBlocks, contained.inodes, ?_, contained.cached⟩
  intro ino valid
  rw [maxInodes] at valid
  refine (contained.onDisk ino valid).congr fun place _ _ => ?_
  simp only [Diskfs.onDisk]
  rw [same _ (by omega) (by omega)]

theorem read (contained : Contained drive fs) (lba : Word) (count : Nat) (buffer : Bytes) :
    Contained drive { fs with ata := (fs.ata.readSectors drive lba count buffer).2.2 } :=
  contained.transferred fun _ _ _ => by rw [Ata.readSectors_sectors]

/-- The bitmaps and the counts of what is free may change. -/
theorem counted (contained : Contained drive fs) {superblock : Superblock} {inodeBitmap blockBitmap : Bitmap 8}
    (blocks : superblock.totalBlocks = fs.superblock.totalBlocks)
    (total : superblock.totalInodes = fs.superblock.totalInodes)
    (inodes : fs.superblock.totalInodes.toNat ≤ maxBlocks ∨
      ∃ bit, maxInodes ≤ bit ∧ bit < maxBlocks ∧ inodeBitmap.test bit = false) :
    Contained drive { fs with superblock, inodeBitmap, blockBitmap } :=
  ⟨contained.mounted, blocks ▸ contained.totalBlocks, total ▸ inodes, contained.onDisk, contained.cached⟩

/-- A record that is read points to blocks that exist. -/
theorem readInode (contained : Contained drive fs) {found : Except Int Inode} {after : Diskfs}
    (call : fs.readInode drive ino = some (found, after)) : Contained drive after ∧
      ∀ inode, found = .ok inode → ino.toNat < maxInodes ∧ Inode.Pointing inode := by
  unfold Diskfs.readInode at call
  split at call
  · obtain ⟨rfl, rfl⟩ := Prod.mk.inj (Option.some.inj call)
    exact ⟨contained, fun _ impossible => by cases impossible⟩
  · next valid =>
    rw [not_le] at valid
    split at call
    · next i hit =>
      obtain ⟨rfl, rfl⟩ := Prod.mk.inj (Option.some.inj call)
      have inside := List.mem_range.mp (List.mem_of_find?_eq_some hit)
      have matched := List.find?_some hit
      rw [Bool.and_eq_true] at matched
      refine ⟨contained, fun inode same => ⟨valid, ?_⟩⟩
      rw [← Except.ok.inj same]
      exact contained.cached i inside matched.1
    · have transfer := contained.read (inodeSector ino) 1 Bytes.zero
      cases result : fs.ata.readSectors drive (inodeSector ino) 1 Bytes.zero with
      | mk ret rest =>
        obtain ⟨sectorBuf, ata⟩ := rest
        rw [result] at call transfer
        dsimp only at call transfer
        split at call
        · obtain ⟨rfl, rfl⟩ := Prod.mk.inj (Option.some.inj call)
          exact ⟨transfer, fun _ impossible => by cases impossible⟩
        · next ok =>
          split at call
          · cases call
          · next fits =>
            obtain ⟨rfl, rfl⟩ := Prod.mk.inj (Option.some.inj call)
            rw [not_not] at ok
            subst ok
            have loaded := Ata.readSectors_ok Nat.one_ne_zero result
            have pointing : Inode.Pointing (Bytes.zero.copy 0 sectorBuf (inodeOffset ino) Inode.bytes) := by
              refine (contained.onDisk ino.toNat valid).congr fun place _ upper => ?_
              rw [Inode.bytes, Nat.not_lt] at fits
              rw [Bytes.copy_inside (Nat.zero_le _) (by rw [Inode.bytes]; omega), loaded,
                Ata.load_one _ _ _ _ (by omega), sectorOf_inodeSector valid, Diskfs.onDisk, inodeOffset, Nat.sub_zero]
            refine ⟨?_, fun inode same => ⟨valid, Except.ok.inj same ▸ pointing⟩⟩
            refine ⟨transfer.mounted, transfer.totalBlocks, transfer.inodes, transfer.onDisk, ?_⟩
            intro i inside
            simp only [remember, Function.update_apply]
            split
            · exact fun _ => pointing
            · exact contained.cached i inside

/-- What a transfer of a record into its slot leaves of the pointers. -/
theorem table (contained : Contained drive fs) (pointing : Inode.Pointing inode) {sectorBuf : Bytes}
    (loaded : ∀ place < 512, sectorBuf place = fs.ata.sectors drive (33 + ino.toNat / 4) place)
    (elsewhere : ∀ sector, sector ≠ 33 + ino.toNat / 4 → ata.sectors drive sector = fs.ata.sectors drive sector)
    (stored : ata.sectors drive (33 + ino.toNat / 4) = fs.ata.sectors drive (33 + ino.toNat / 4) ∨
      ata.sectors drive (33 + ino.toNat / 4) = sectorBuf.copy (inodeOffset ino) inode 0 Inode.bytes) :
    Contained drive { fs with ata } := by
  refine ⟨contained.mounted, contained.totalBlocks, contained.inodes, ?_, contained.cached⟩
  intro other inside
  have before := contained.onDisk other inside
  by_cases here : 33 + other / 4 = 33 + ino.toNat / 4
  · rcases stored with same | new
    · refine before.congr fun place _ _ => ?_
      simp only [Diskfs.onDisk]
      rw [here, same]
    · by_cases record : other = ino.toNat
      · refine pointing.congr fun place _ upper => ?_
        simp only [Diskfs.onDisk]
        rw [here, new, record, inodeOffset, Bytes.copy_inside (Nat.le_add_right _ _) (by rw [Inode.bytes]; omega),
          Nat.zero_add, Nat.add_sub_cancel_left]
      · -- The record is longer than its slot, but ends before the pointers of the next one.
        refine before.congr fun place lower upper => ?_
        simp only [Diskfs.onDisk]
        rw [here, new, Bytes.copy_outside (by rw [inodeOffset, Inode.bytes]; omega), loaded _ (by omega)]
  · refine before.congr fun place _ _ => ?_
    simp only [Diskfs.onDisk]
    rw [elsewhere _ here]

/-- Writing such a record keeps all of them such. -/
theorem writeInode (contained : Contained drive fs) (pointing : Inode.Pointing inode) {ret : Int} {after : Diskfs}
    (call : fs.writeInode drive ino inode = some (ret, after)) : Contained drive after := by
  unfold Diskfs.writeInode at call
  split at call
  · obtain ⟨rfl, rfl⟩ := Prod.mk.inj (Option.some.inj call)
    exact contained
  · next valid =>
    rw [not_le] at valid
    have transfer := contained.read (inodeSector ino) 1 Bytes.zero
    have sectors := Ata.readSectors_sectors fs.ata drive (inodeSector ino) 1 Bytes.zero
    cases result : fs.ata.readSectors drive (inodeSector ino) 1 Bytes.zero with
    | mk ret rest =>
      obtain ⟨sectorBuf, ata⟩ := rest
      rw [result] at call transfer sectors
      dsimp only at call transfer sectors
      split at call
      · obtain ⟨rfl, rfl⟩ := Prod.mk.inj (Option.some.inj call)
        exact transfer
      · next ok =>
        rw [not_not] at ok
        subst ok
        split at call
        · cases call
        · have loaded := Ata.readSectors_ok Nat.one_ne_zero result
          have place := @sectorOf_inodeSector ino valid
          have held (at_ : Nat) (inside : at_ < 512) : sectorBuf at_ = ata.sectors drive (33 + ino.toNat / 4) at_ := by
            rw [loaded, Ata.load_one _ _ _ _ inside, place, sectors]
          generalize stored : sectorBuf.copy (inodeOffset ino) inode 0 Inode.bytes = buffer at call
          have last : Contained drive { fs with ata := (ata.writeSectors drive (inodeSector ino) 1 buffer).2 } := by
            refine transfer.table pointing held ?_ ?_
            · intro sector other
              exact Ata.writeSectors_outside (by omega)
            · rw [stored, ← place]
              exact Ata.writeSectors_one _ _ _ _
          generalize ata.writeSectors drive (inodeSector ino) 1 buffer = written at call last
          obtain ⟨ret, ata'⟩ := written
          dsimp only at call last
          split at call
          · obtain ⟨rfl, rfl⟩ := Prod.mk.inj (Option.some.inj call)
            exact last
          · split at call
            · obtain ⟨rfl, rfl⟩ := Prod.mk.inj (Option.some.inj call)
              refine ⟨last.mounted, last.totalBlocks, last.inodes, last.onDisk, ?_⟩
              intro i inside
              simp only [Function.update_apply]
              split
              · exact fun _ => pointing
              · exact contained.cached i inside
            · obtain ⟨rfl, rfl⟩ := Prod.mk.inj (Option.some.inj call)
              exact last

theorem writeBitmaps (contained : Contained drive fs) : Contained drive (fs.writeBitmaps drive).2 := by
  have inodes : Contained drive { fs with ata := (fs.ata.writeSectors drive 1 16 fs.inodeBitmap).2 } :=
    contained.transferred fun sector lower _ => Ata.writeSectors_outside (.inr (le_trans (by decide) lower))
  unfold Diskfs.writeBitmaps
  generalize fs.ata.writeSectors drive 1 16 fs.inodeBitmap = first at inodes
  obtain ⟨ret, ata⟩ := first
  dsimp only at inodes ⊢
  split
  · exact inodes
  · exact inodes.transferred fun sector lower _ => Ata.writeSectors_outside (.inr (le_trans (by decide) lower))

/-- The superblock and the bitmaps have their own sectors. -/
theorem sync (contained : Contained drive fs) : Contained drive fs.sync.2 := by
  unfold Diskfs.sync
  split
  · exact contained
  · rw [contained.mounted]
    have superblock : Contained drive (fs.writeSuperblock drive).2 :=
      contained.transferred fun sector lower _ => Ata.writeSectors_outside (.inr (le_trans (by decide) lower))
    have mounted : (fs.writeSuperblock drive).2.mountedDrive = drive := contained.mounted
    dsimp only
    rw [mounted]
    exact superblock.writeBitmaps

end Contained

end Diskfs

namespace Watched

open Diskfs

variable {fs : Diskfs} {drive : Byte} {ino : Word} {inode : Inode}

theorem bitmapFindFrom_meets {bitmap : Bitmap 8} {turns i : Nat}
    (ends : i + turns ≤ maxBlocks ∨ ∃ bit, i ≤ bit ∧ bit < maxBlocks ∧ bitmap.test bit = false) :
    (bitmapFindFrom bitmap turns i).Meets DiskAccess.InRange fun bit =>
      bit = -1 ∨ ∃ free : Nat, bit = free ∧ free < maxBlocks ∧ free < i + turns ∧ bitmap.test free = false := by
  induction turns generalizing i with
  | zero => exact .pure (.inl rfl)
  | succ turns ih =>
    rw [bitmapFindFrom]
    have inside : i < maxBlocks := by
      rcases ends with short | ⟨bit, lower, upper, _⟩
      · omega
      · omega
    have limit : maxBlocks = 65536 := rfl
    refine (Meets.tell (DiskAccess.bitmap_inRange inside)).bind fun _ _ => ?_
    rw [if_neg (by omega), bitmapTest_eq]
    cases here : bitmap.test i with
    | true =>
      rw [if_pos rfl]
      refine (ih ?_).imp ?_
      · rcases ends with short | ⟨bit, lower, upper, unset⟩
        · exact .inl (by omega)
        · refine .inr ⟨bit, ?_, upper, unset⟩
          rcases Nat.lt_or_eq_of_le lower with later | rfl
          · exact later
          · rw [here] at unset
            cases unset
      · rintro bit (none | ⟨free, same, small, before, unset⟩)
        · exact .inl none
        · exact .inr ⟨free, same, small, by omega, unset⟩
    | false =>
      rw [if_neg Bool.false_ne_true]
      exact .pure (.inr ⟨i, rfl, inside, by omega, here⟩)

theorem allocBlock_meets (contained : Contained drive fs) :
    (allocBlock fs).Meets DiskAccess.InRange fun result => Contained drive result.2 ∧
      (result.1 < 0 ∨ ∃ block : Nat, result.1 = block ∧ block < maxBlocks) := by
  have total := contained.totalBlocks
  refine (bitmapFindFrom_meets (.inl (by rwa [Nat.zero_add]))).bind fun block spec => ?_
  rcases spec with none | ⟨free, rfl, small, _, _⟩
  · rw [none]
    exact .pure ⟨contained, .inl (show (-1 : Int) < 0 by decide)⟩
  · rw [if_neg (by omega)]
    refine (Meets.tell (DiskAccess.bitmap_inRange small)).bind fun _ _ => .pure ⟨?_, .inr ⟨free, rfl, small⟩⟩
    have totals := Superblock.setFreeBlocks_totals fs.superblock (fs.superblock.freeBlocks - 1)
    exact contained.counted totals.1 totals.2 contained.inodes

theorem freeBlock_meets (contained : Contained drive fs) {block : Word} (small : block.toNat < maxBlocks) :
    (freeBlock fs block).Meets DiskAccess.InRange (Contained drive) := by
  rw [freeBlock]
  split
  · exact .pure contained
  · next inside =>
    refine (Meets.tell (DiskAccess.bitmap_inRange small)).bind fun _ _ => .ofOption fun after freed => ?_
    rw [Diskfs.freeBlock, if_neg inside, if_neg (by omega)] at freed
    obtain rfl := Option.some.inj freed
    have totals := Superblock.setFreeBlocks_totals fs.superblock (fs.superblock.freeBlocks + 1)
    exact contained.counted totals.1 totals.2 contained.inodes

/-- The lowest free bit, with more inodes counted than the bitmap has only where
a bit behind the records is free. -/
theorem allocInode_meets (contained : Contained drive fs) :
    (allocInode fs).Meets DiskAccess.InRange fun result => result = (-1, fs) ∨
      ∃ free : Nat, result = ((free : Int), fs.inodeTaken free) ∧ free < maxBlocks ∧
        free < fs.superblock.totalInodes.toNat := by
  have ends : 0 + fs.superblock.totalInodes.toNat ≤ maxBlocks ∨
      ∃ bit, 0 ≤ bit ∧ bit < maxBlocks ∧ fs.inodeBitmap.test bit = false := by
    rcases contained.inodes with few | ⟨bit, _, small, unset⟩
    · exact .inl (by omega)
    · exact .inr ⟨bit, Nat.zero_le _, small, unset⟩
  refine (bitmapFindFrom_meets ends).bind fun ino spec => ?_
  rcases spec with none | ⟨free, rfl, small, counted, _⟩
  · rw [none]
    exact .pure (.inl rfl)
  · rw [if_neg (by omega)]
    refine (Meets.tell (DiskAccess.bitmap_inRange small)).bind fun _ _ => .pure (.inr ⟨free, rfl, small, ?_⟩)
    omega

theorem contained_inodeTaken (contained : Contained drive fs) {free : Nat} (valid : free < maxInodes) :
    Contained drive (fs.inodeTaken free) := by
  have totals := Superblock.setFreeInodes_totals fs.superblock (fs.superblock.freeInodes - 1)
  refine contained.counted totals.1 totals.2 ?_
  rcases contained.inodes with few | ⟨bit, behind, small, unset⟩
  · exact .inl few
  · refine .inr ⟨bit, behind, small, ?_⟩
    have other : free ≠ bit := by omega
    rw [Bitmap.test_set _ (by decide), unset, decide_eq_false other, Bool.or_false]

/-- The state after the bit of the inode has been cleared. -/
theorem freeInode_meets (small : ino.toNat < maxBlocks)
    (last : Contained drive (fs.inodeFreed ino.toNat)) (skipped : ino ≥ fs.superblock.totalInodes → Contained drive fs) :
    (freeInode fs ino).Meets DiskAccess.InRange (Contained drive) := by
  rw [freeInode]
  split
  · next beyond => exact .pure (skipped beyond)
  · next inside =>
    refine (Meets.tell (DiskAccess.bitmap_inRange small)).bind fun _ _ => .ofOption fun after freed => ?_
    rw [Diskfs.freeInode, if_neg inside, if_neg (by omega)] at freed
    obtain rfl := Option.some.inj freed
    exact last

theorem contained_inodeFreed (contained : Contained drive fs) (bit : Nat) : Contained drive (fs.inodeFreed bit) := by
  have totals := Superblock.setFreeInodes_totals fs.superblock (fs.superblock.freeInodes + 1)
  refine contained.counted totals.1 totals.2 ?_
  rcases contained.inodes with few | ⟨other, behind, small, unset⟩
  · exact .inl few
  · refine .inr ⟨other, behind, small, ?_⟩
    rw [Bitmap.test_clear _ (by decide), unset, Bool.and_false]

theorem readLoop_meets (pointing : Inode.Pointing inode) (offset size : Word) (turns : Nat)
    (contained : Contained drive fs) (bytesRead : Nat) (buffer : Bytes) :
    (readLoop inode offset size turns fs bytesRead buffer).Meets DiskAccess.InRange fun result =>
      Contained drive result.2.2 := by
  induction turns generalizing fs bytesRead buffer with
  | zero => exact .stop
  | succ turns ih =>
    rw [readLoop]
    dsimp only
    split
    · exact .pure contained
    · split
      · exact .pure contained
      · next inside =>
        split
        · exact .pure contained
        · have small := pointing _ (not_le.mp inside)
          refine (Meets.tell (DiskAccess.data_inRange small)).bind fun _ _ => ?_
          obtain rfl := contained.mounted
          have after := contained.read (dataStart + inode.block ((offset + BitVec.ofNat 32 bytesRead).toNat / 512)) 1 Bytes.zero
          split
          · exact .pure after
          · exact ih after _ _

theorem read_meets (contained : Contained drive fs) (ino : Word) (buffer : Bytes) (offset size : Word) :
    (read fs ino buffer offset size).Meets DiskAccess.InRange fun result => Contained drive result.2.2 := by
  rw [read]
  split
  · exact .pure contained
  · rw [contained.mounted]
    refine (Meets.ofOption fun result => contained.readInode).bind fun result spec => ?_
    obtain ⟨found, after⟩ := result
    cases found with
    | error _ => exact .pure spec.1
    | ok inode =>
      dsimp only
      split
      · exact .pure spec.1
      · exact readLoop_meets (spec.2 inode rfl).2 _ _ _ spec.1 _ _

/-- A pointer that is missing becomes one to a block that exists. -/
theorem claimBlock_meets (contained : Contained drive fs) (pointing : Inode.Pointing inode) (blockIdx : Nat) :
    (claimBlock fs inode blockIdx).Meets DiskAccess.InRange fun result => Contained drive result.2 ∧
      ∀ claimed, result.1 = some claimed → Inode.Pointing claimed := by
  rw [claimBlock]
  split
  · refine (allocBlock_meets contained).bind fun result spec => ?_
    obtain ⟨block, after⟩ := result
    dsimp only at spec ⊢
    rcases spec with ⟨held, negative | ⟨free, rfl, small⟩⟩
    · rw [if_pos negative]
      exact .pure ⟨held, fun _ impossible => by cases impossible⟩
    · rw [if_neg (by omega)]
      exact .pure ⟨held, fun _ same => Option.some.inj same ▸ pointing.setBlock small blockIdx⟩
  · exact .pure ⟨contained, fun _ same => Option.some.inj same ▸ pointing⟩

theorem contained_storeChunk (contained : Contained drive fs) {block : Word} (small : block.toNat < maxBlocks)
    (blockOffset : Nat) (source : Bytes) (bytesWritten toWrite : Nat) :
    Contained drive (fs.storeChunk block blockOffset source bytesWritten toWrite).2 := by
  obtain rfl := contained.mounted
  have behind := sectorOf_data small
  have moved {ata : Ata} (same : ata.sectors = fs.ata.sectors) (buffer : Bytes) :
      Contained fs.mountedDrive { fs with ata := (ata.writeSectors fs.mountedDrive (dataStart + block) 1 buffer).2 } := by
    refine contained.transferred fun sector _ upper => ?_
    rw [Ata.writeSectors_outside (.inl (by omega)), same]
  have loaded := contained.read (dataStart + block) 1 Bytes.zero
  have sectors := Ata.readSectors_sectors fs.ata fs.mountedDrive (dataStart + block) 1 Bytes.zero
  rw [Diskfs.storeChunk]
  by_cases part : blockOffset ≠ 0 ∨ toWrite < 512
  · rw [if_pos part]
    generalize fs.ata.readSectors fs.mountedDrive (dataStart + block) 1 Bytes.zero = result at loaded sectors
    obtain ⟨ret, blockBuf, ata⟩ := result
    dsimp only at loaded sectors ⊢
    split
    · exact loaded
    · have last := moved sectors (blockBuf.copy blockOffset source bytesWritten toWrite)
      split
      · exact last
      · exact last
  · rw [if_neg part]
    dsimp only
    rw [if_neg (by decide)]
    have last := moved rfl (Bytes.zero.copy blockOffset source bytesWritten toWrite)
    split
    · exact last
    · exact last

theorem storeChunk_meets (contained : Contained drive fs) {block : Word} (small : block.toNat < maxBlocks)
    (blockOffset : Nat) (source : Bytes) (bytesWritten toWrite : Nat) :
    (storeChunk fs block blockOffset source bytesWritten toWrite).Meets DiskAccess.InRange fun result =>
      Contained drive result.2 :=
  (Meets.tell (DiskAccess.data_inRange small)).bind fun _ _ => .pure (contained_storeChunk contained small _ _ _ _)

theorem writeLoop_meets (source : Bytes) (offset size : Word) (turns : Nat) (contained : Contained drive fs)
    (pointing : Inode.Pointing inode) (bytesWritten : Nat) :
    (writeLoop source offset size turns fs inode bytesWritten).Meets DiskAccess.InRange fun result =>
      Contained drive result.2 ∧ ∀ last count, result.1 = some (last, count) → Inode.Pointing last := by
  induction turns generalizing fs inode bytesWritten with
  | zero => exact .stop
  | succ turns ih =>
    rw [writeLoop]
    split
    · exact .pure ⟨contained, fun _ _ same => (Prod.mk.inj (Option.some.inj same)).1 ▸ pointing⟩
    · split
      · exact .pure ⟨contained, fun _ _ same => (Prod.mk.inj (Option.some.inj same)).1 ▸ pointing⟩
      · next inside =>
        refine (claimBlock_meets contained pointing _).bind fun result spec => ?_
        obtain ⟨claimed, after⟩ := result
        cases claimed with
        | none => exact .pure ⟨spec.1, fun _ _ same => (Prod.mk.inj (Option.some.inj same)).1 ▸ pointing⟩
        | some inode =>
          have held := spec.2 inode rfl
          have small := held _ (not_le.mp inside)
          dsimp only
          refine (storeChunk_meets spec.1 small _ _ _ _).bind fun stored kept => ?_
          obtain ⟨code, last⟩ := stored
          rcases code with (_ | other) | other
          · exact ih kept held _
          · exact .pure ⟨kept, fun _ _ impossible => by cases impossible⟩
          · exact .pure ⟨kept, fun _ _ impossible => by cases impossible⟩

theorem write_meets (contained : Contained drive fs) (ino : Word) (source : Bytes) (offset size now : Word) :
    (write fs ino source offset size now).Meets DiskAccess.InRange fun result => Contained drive result.2 := by
  rw [write]
  split
  · exact .pure contained
  · rw [contained.mounted]
    refine (Meets.ofOption fun result => contained.readInode).bind fun result spec => ?_
    obtain ⟨found, after⟩ := result
    cases found with
    | error _ => exact .pure spec.1
    | ok inode =>
      refine (writeLoop_meets _ _ _ _ spec.1 (spec.2 inode rfl).2 0).bind fun result spec => ?_
      obtain ⟨written, last⟩ := result
      cases written with
      | none => exact .pure spec.1
      | some pair =>
        obtain ⟨inode, count⟩ := pair
        have pointing := spec.2 inode count rfl
        have longer (value : Word) : Inode.Pointing (inode.setSize value) :=
          pointing.congr (Bytes.setWord_same (by decide))
        have timed {inode : Inode} (pointing : Inode.Pointing inode) : Inode.Pointing (inode.setMtime now) :=
          pointing.congr (Bytes.setWord_same (by decide))
        dsimp only
        rw [spec.1.mounted]
        refine (Meets.ofOption fun result => spec.1.writeInode ?_).bind fun result spec => .pure spec
        split
        · exact timed (longer _)
        · exact timed pointing

theorem lookupLoop_meets (junk : Nat → Dirent) (dirIno : Word) (name : CString) (turns : Nat)
    (contained : Contained drive fs) (i : Nat) :
    (lookupLoop junk dirIno name turns fs i).Meets DiskAccess.InRange fun result => Contained drive result.2 := by
  induction turns generalizing fs i with
  | zero => exact .pure contained
  | succ turns ih =>
    rw [lookupLoop]
    refine (read_meets contained _ _ _ _).bind fun result kept => ?_
    obtain ⟨ret, entry, after⟩ := result
    dsimp only at kept ⊢
    split
    · exact .pure kept
    · split
      · exact ih kept _
      · refine (Meets.ofOption fun _ _ => trivial).bind fun equal _ => ?_
        split
        · exact .pure kept
        · exact ih kept _

theorem lookup_meets (contained : Contained drive fs) (junk : Nat → Dirent) (dirIno : Word) (name : CString) :
    (lookup fs junk dirIno name).Meets DiskAccess.InRange fun result => Contained drive result.2 := by
  rw [lookup]
  split
  · exact .pure contained
  · rw [contained.mounted]
    refine (Meets.ofOption fun result => contained.readInode).bind fun result spec => ?_
    obtain ⟨found, after⟩ := result
    cases found with
    | error _ => exact .pure spec.1
    | ok dir =>
      dsimp only
      split
      · exact .pure spec.1
      · exact lookupLoop_meets _ _ _ _ spec.1 _

/-- An inode number behind the table is given back: its bit is clear in the end. -/
theorem contained_inodeReturned (contained : Contained drive fs) {free : Nat} (behind : maxInodes ≤ free)
    (small : free < maxBlocks) : Contained drive ((fs.inodeTaken free).inodeFreed free) := by
  have taken := Superblock.setFreeInodes_totals fs.superblock (fs.superblock.freeInodes - 1)
  have freed := Superblock.setFreeInodes_totals (fs.inodeTaken free).superblock ((fs.inodeTaken free).superblock.freeInodes + 1)
  refine contained.counted (freed.1.trans taken.1) (freed.2.trans taken.2) (.inr ⟨free, behind, small, ?_⟩)
  rw [Bitmap.test_clear _ (by decide), decide_eq_true rfl]
  rfl

theorem createEntry_meets (contained : Contained drive fs) (parentIno size : Word) (name : CString)
    (type created written : Word) :
    (createEntry fs parentIno size name type created written).Meets DiskAccess.InRange fun result =>
      Contained drive result.2 := by
  rw [createEntry]
  refine (allocInode_meets contained).bind fun result spec => ?_
  rcases spec with rfl | ⟨free, rfl, small, counted⟩
  · exact .pure contained
  · have number : (BitVec.ofInt 32 free).toNat = free := by
      rw [BitVec.ofInt_natCast, BitVec.toNat_ofNat]
      rw [maxBlocks] at small
      omega
    dsimp only
    rw [if_neg (by omega), show (fs.inodeTaken free).mountedDrive = drive from contained.mounted]
    by_cases valid : free < maxInodes
    · have fresh : Inode.Pointing (Inode.fresh type parentIno created) := by
        intro index inside
        rw [fresh_block type parentIno created inside]
        decide
      have taken := contained_inodeTaken contained valid
      refine (Meets.ofOption fun result => taken.writeInode fresh).bind fun result kept => ?_
      obtain ⟨ret, after⟩ := result
      have freed {later : Diskfs} (kept : Contained drive later) :
          (do let fs ← freeInode later (BitVec.ofInt 32 free); pure ((-1 : Int), fs)).Meets DiskAccess.InRange
            fun result => Contained drive result.2 :=
        (freeInode_meets (by omega) (contained_inodeFreed kept _) fun _ => kept).bind fun _ last => .pure last
      dsimp only
      split
      · exact freed kept
      · refine (write_meets kept _ _ _ _ _).bind fun result kept => ?_
        split
        · exact freed kept
        · exact .pure kept.sync
    · have beyond : maxInodes ≤ (BitVec.ofInt 32 free).toNat := by omega
      have last := contained_inodeReturned contained (not_lt.mp valid) small
      have inside : ¬ BitVec.ofInt 32 free ≥ (fs.inodeTaken free).superblock.totalInodes := by
        have totals := Superblock.setFreeInodes_totals fs.superblock (fs.superblock.freeInodes - 1)
        rw [ge_iff_le, BitVec.le_def, number, inodeTaken, totals.2]
        omega
      rw [Diskfs.writeInode, if_pos beyond]
      refine (Meets.ofOption fun result same => (Option.some.inj same).symm).bind fun result same => ?_
      obtain rfl := same
      dsimp only
      rw [if_pos (by decide)]
      refine (freeInode_meets (by omega) ?_ fun above => absurd above inside).bind fun _ kept => .pure kept
      rwa [number]

theorem create_meets (contained : Contained drive fs) (junk : Nat → Dirent) (parentIno : Word) (name : CString)
    (type created written : Word) :
    (create fs junk parentIno name type created written).Meets DiskAccess.InRange fun result =>
      Contained drive result.2 := by
  rw [create]
  split
  · exact .pure contained
  · split
    · exact .pure contained
    · rw [contained.mounted]
      refine (Meets.ofOption fun result => contained.readInode).bind fun result spec => ?_
      obtain ⟨found, after⟩ := result
      cases found with
      | error _ => exact .pure spec.1
      | ok parent =>
        dsimp only
        split
        · exact .pure spec.1
        · refine (lookup_meets spec.1 _ _ _).bind fun result kept => ?_
          split
          · exact .pure kept
          · exact createEntry_meets kept _ _ _ _ _ _

theorem freeBlocksFrom_meets (pointing : Inode.Pointing inode) (indices : List Nat)
    (inside : ∀ index ∈ indices, index < directBlocks) (contained : Contained drive fs) :
    (freeBlocksFrom inode indices fs).Meets DiskAccess.InRange (Contained drive) := by
  induction indices generalizing fs with
  | nil => exact .pure contained
  | cons i rest ih =>
    have later := fun index behind => inside index (List.mem_cons_of_mem _ behind)
    rw [freeBlocksFrom]
    split
    · have small := pointing i (inside i List.mem_cons_self)
      exact (freeBlock_meets contained small).bind fun _ kept => ih later kept
    · exact ih later contained

theorem clearLoop_meets (junk : Nat → Dirent) (parentIno ino now : Word) (turns : Nat) (contained : Contained drive fs)
    (i : Nat) : (clearLoop junk parentIno ino now turns fs i).Meets DiskAccess.InRange (Contained drive) := by
  induction turns generalizing fs i with
  | zero => exact .pure contained
  | succ turns ih =>
    rw [clearLoop]
    refine (read_meets contained _ _ _ _).bind fun result kept => ?_
    obtain ⟨_, entry, after⟩ := result
    dsimp only at kept ⊢
    split
    · exact (write_meets kept _ _ _ _ _).bind fun _ last => .pure last
    · exact ih kept _

theorem deleteInode_meets (contained : Contained drive fs) (scrap : Nat → Dirent) (parentIno : Word)
    (valid : ino.toNat < maxInodes) (pointing : Inode.Pointing inode) (now : Word) :
    (deleteInode fs scrap parentIno ino inode now).Meets DiskAccess.InRange fun result => Contained drive result.2 := by
  have small : ino.toNat < maxBlocks := lt_trans valid (by decide)
  rw [deleteInode]
  refine (freeBlocksFrom_meets pointing _ (fun _ => List.mem_range.mp) contained).bind fun freed kept => ?_
  refine (freeInode_meets small (contained_inodeFreed kept _) fun _ => kept).bind fun cleared kept => ?_
  rw [kept.mounted]
  refine (Meets.ofOption fun result => kept.readInode).bind fun result spec => ?_
  obtain ⟨found, after⟩ := result
  cases found with
  | error _ => exact .pure spec.1
  | ok parent => exact (clearLoop_meets _ _ _ _ _ spec.1 _).bind fun _ last => .pure last.sync

theorem delete_meets (contained : Contained drive fs) (junk scrap : Nat → Dirent) (parentIno : Word) (name : CString)
    (now : Word) :
    (delete fs junk scrap parentIno name now).Meets DiskAccess.InRange fun result => Contained drive result.2 := by
  rw [delete]
  split
  · exact .pure contained
  · refine (lookup_meets contained _ _ _).bind fun result kept => ?_
    dsimp only
    split
    · exact .pure kept
    · rw [kept.mounted]
      refine (Meets.ofOption fun result => kept.readInode).bind fun result spec => ?_
      obtain ⟨found, after⟩ := result
      cases found with
      | error _ => exact .pure spec.1
      | ok inode =>
        obtain ⟨valid, pointing⟩ := spec.2 inode rfl
        dsimp only
        split
        · exact .pure spec.1
        · exact deleteInode_meets spec.1 _ _ valid pointing _

theorem request_meets (request : Request) (contained : Contained drive fs) :
    (Watched.request request fs).Meets DiskAccess.InRange fun result => Contained drive result.2 := by
  match request with
  | .change (.write ino source offset size now) => exact (write_meets contained _ _ _ _ _).bind fun _ kept => .pure kept
  | .change (.create junk parentIno name type created written) =>
    exact (create_meets contained _ _ _ _ _ _).bind fun _ kept => .pure kept
  | .change (.delete junk scrap parentIno name now) =>
    exact (delete_meets contained _ _ _ _ _).bind fun _ kept => .pure kept
  | .read ino buffer offset size => exact (read_meets contained _ _ _ _).bind fun _ kept => .pure kept
  | .stat ino =>
    refine .ofOption fun result returned => ?_
    obtain ⟨⟨found, after⟩, call, rfl⟩ := Option.map_eq_some_iff.mp returned
    unfold Diskfs.stat at call
    split at call
    · obtain ⟨rfl, rfl⟩ := Prod.mk.inj (Option.some.inj call)
      exact contained
    · rw [contained.mounted] at call
      exact (contained.readInode call).1
  | .lookup junk dirIno name => exact (lookup_meets contained _ _ _).bind fun _ kept => .pure kept

theorem run_meets (requests : List Request) (contained : Contained drive fs) :
    (run requests fs).Meets DiskAccess.InRange (Contained drive) := by
  induction requests generalizing fs with
  | nil => exact .pure contained
  | cons next rest ih => exact (request_meets next contained).bind fun _ kept => ih kept

end Watched

section Mounted

variable {before ready : Diskfs} {drive : Byte}

theorem mount_contained (mounted : before.mount drive = (0, ready)) (image : before.SafeImage drive) :
    ready.Contained drive := by
  have present : before.ata.driveExists drive = true := by
    by_contra absent
    rw [Diskfs.mount, if_pos absent] at mounted
    exact absurd (Prod.mk.inj mounted).1 (by decide)
  rw [Diskfs.mount_present present] at mounted
  split at mounted
  · next mountable =>
    obtain ⟨-, rfl⟩ := Prod.mk.inj mounted
    obtain ⟨recognised, second, _⟩ := mountable
    have superblock : Bytes.Same (before.ata.sectors drive 0) (before.takenIn drive).superblock 0 512 := by
      intro place _ inside
      rw [Diskfs.takenIn, Diskfs.superblockIntake, Ata.moved_of_works recognised.1]
      exact Ata.load_one before.ata drive 0 before.superblock inside
    have bitmap {bit : Nat} (small : bit < maxBlocks) :
        (before.takenIn drive).inodeBitmap.test bit = Bitmap.test (before.ata.load drive 1 16 Bytes.zero) bit := by
      have inside : bit / 8 < 512 * 16 := by
        rw [maxBlocks] at small
        omega
      have intake : (before.takenIn drive).inodeBitmap = before.ata.load drive 1 16 before.inodeBitmap := by
        rw [Diskfs.takenIn, Diskfs.inodeIntake, if_pos recognised, Ata.moved_of_works second]
      rw [intake, Bitmap.test, Bitmap.test, Ata.load, Ata.load, if_pos inside, if_pos inside]
    refine ⟨rfl, ?_, ?_, image.records, fun _ _ impossible => by cases impossible⟩
    · rw [Superblock.totalBlocks, superblock.word (by decide) (by decide)]
      exact image.totalBlocks
    · rw [Superblock.totalInodes, superblock.word (by decide) (by decide)]
      refine image.inodes.imp_right ?_
      rintro ⟨bit, behind, small, unset⟩
      exact ⟨bit, behind, small, (bitmap small).trans unset⟩
  · exact absurd (Prod.mk.inj mounted).1 (by decide)

end Mounted

/-- Whatever is asked for after the mount of such an image, no index leaves the
bitmaps and no sector the data. -/
theorem diskfs_accesses_contained {before ready : Diskfs} {drive : Byte} (mounted : before.mount drive = (0, ready))
    (image : before.SafeImage drive) (requests : List Diskfs.Request) :
    (Watched.run requests ready).Shows DiskAccess.InRange :=
  (Watched.run_meets requests (mount_contained mounted image)).shows_

/-- The records that `diskfs_format` leaves on a drive of zeros have no pointers. -/
theorem zeroDrive_pointing {ino : Nat} (valid : ino < maxInodes) :
    Inode.Pointing (((Diskfs.uniform 0).formatted 0 0).onDisk 0 ino) := by
  have bare : Bytes.Same Bytes.zero (((Diskfs.uniform 0).formatted 0 0).onDisk 0 ino) 8 56 := by
    intro place lower upper
    by_cases root : ino = 0
    · subst root
      have fresh : ∀ place < 56, 8 ≤ place → Inode.fresh typeDir 0 0 place = 0 := by decide
      exact (Diskfs.onDisk_inodeWritten_self (by decide) _ place (Nat.zero_le _) (by rw [Inode.bytes]; omega)).trans
        (fresh place upper lower)
    · have bitmaps : Ata.sectorOf 1 = 1 ∧ Ata.sectorOf 17 = 17 ∧ Ata.sectorOf 0 = 0 := by decide
      rw [Diskfs.formatted, Diskfs.onDisk_inodeWritten_other (by decide) (by decide) _ root (by omega),
        if_neg (by omega), Diskfs.onDisk, Diskfs.metadataStored]
      refine (congrFun (Ata.store_outside _ _ _ _ _ (.inr (by omega))) _).trans ?_
      refine (congrFun (Ata.store_outside _ _ _ _ _ (.inr (by omega))) _).trans ?_
      exact (congrFun (Ata.store_outside _ _ _ _ _ (.inr (by omega))) _).trans rfl
  intro index bound
  rw [directBlocks] at bound
  rw [Inode.block, bare.word (by omega) (by omega), Bytes.word_zero]
  decide

theorem diskfs_accesses_contained_format :
    (Watched.run [.change (Diskfs.createLetter 97 (by decide)), .read 0 Bytes.zero 0 32] Diskfs.zeroDrive).Shows
      DiskAccess.InRange :=
  diskfs_accesses_contained Diskfs.zeroDrive_ready.2 ⟨by decide +kernel, .inl (by decide +kernel),
    fun _ valid => zeroDrive_pointing valid⟩ _

/-- A formatted drive whose root directory begins behind the last block. -/
def farRoot : Diskfs :=
  let formatted := (Diskfs.uniform 0).formatted 0 0
  let root := ((formatted.onDisk 0 0).setSize 512).setBlock 0 (BitVec.ofNat 32 maxBlocks)
  { formatted with ata := formatted.ata.store 0 inodeTableStart 1 root }

theorem diskfs_accesses_escape :
    ∃ ready, farRoot.mount 0 = (0, ready) ∧
      ¬ (Watched.run [.read 0 Bytes.zero 0 1] ready).Shows DiskAccess.InRange := by
  refine ⟨(farRoot.mount 0).2, Prod.ext (by decide +kernel) rfl, ?_⟩
  intro shown
  have behind : DiskAccess.data 66081 ∈ (Watched.run [.read 0 Bytes.zero 0 1] (farRoot.mount 0).2).trace := by
    decide +kernel
  exact absurd (shown _ behind).2 (by decide)

end MexOS.Fs
