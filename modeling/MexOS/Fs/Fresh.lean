import MexOS.Fs.Removal

/-! The state after `diskfs_format` and `diskfs_mount` of any drive that works. -/

namespace MexOS.Fs.Diskfs

open MexOS.Machine

theorem fresh_totalInodes : Superblock.fresh.totalInodes = 512 := by decide
theorem fresh_totalBlocks : Superblock.fresh.totalBlocks = 65536 := by decide
theorem fresh_magic : Superblock.fresh.magic = diskfsMagic := by decide

/-- What `diskfs_format` has in memory before it writes. -/
def blank (fs : Diskfs) : Diskfs :=
  { fs with
    superblock := Superblock.fresh
    inodeBitmap := Bitmap.set Bytes.zero 0
    blockBitmap := Bytes.zero }

/-- The superblock and the bitmaps of `fs` are on the disk. -/
def metadataStored (fs : Diskfs) (drive : Byte) : Ata :=
  ((((fs.ata.store drive 0 1 fs.superblock).tick.store drive 1 16 fs.inodeBitmap).tick).store drive 17 16
    fs.blockBitmap).tick

section Load

variable {ata : Ata} {drive : Byte}

/-- Loading what is on the disk already. -/
theorem load_self {lba : Word} {count : Nat} {buffer : Bytes} (holds : ata.Holds drive lba count buffer) :
    ata.load drive lba count buffer = buffer := by
  funext place
  rw [Ata.load]
  split
  · next inside => exact holds place inside
  · rfl

end Load

section Metadata

variable {fs : Diskfs} {drive : Byte}

theorem metadataStored_working (working : fs.ata.Working drive) : (fs.metadataStored drive).Working drive :=
  ((((working.store _ _ _).tick.store _ _ _).tick).store _ _ _).tick

theorem metadataStored_superblock {place : Nat} :
    (fs.metadataStored drive).sectors drive 0 place = fs.superblock place := by
  rw [metadataStored, Ata.tick_sectors, Ata.store_outside _ _ _ _ _ (.inl (by decide)), Ata.tick_sectors,
    Ata.store_outside _ _ _ _ _ (.inl (by decide)), Ata.tick_sectors,
    Ata.store_inside _ _ _ _ _ (by decide) (by decide)]
  congr 1
  exact Nat.zero_add place

theorem metadataStored_inodeBitmap {place : Nat} (inside : place < 512 * 16) :
    (fs.metadataStored drive).sectors drive (1 + place / 512) (place % 512) = fs.inodeBitmap place := by
  have first : Ata.sectorOf 1 = 1 := rfl
  have behind : Ata.sectorOf 17 = 17 := rfl
  rw [metadataStored, Ata.tick_sectors, Ata.store_outside _ _ _ _ _ (.inl (by omega)), Ata.tick_sectors,
    Ata.store_inside _ _ _ _ _ (by omega) (by omega), first]
  congr 1
  omega

theorem metadataStored_blockBitmap {place : Nat} (inside : place < 512 * 16) :
    (fs.metadataStored drive).sectors drive (17 + place / 512) (place % 512) = fs.blockBitmap place := by
  have first : Ata.sectorOf 17 = 17 := rfl
  rw [metadataStored, Ata.tick_sectors, Ata.store_inside _ _ _ _ _ (by omega) (by omega), first]
  congr 1
  omega

theorem metadataStored_holds (fs : Diskfs) (drive : Byte) :
    (fs.metadataStored drive).Holds drive 0 1 fs.superblock ∧
      (fs.metadataStored drive).Holds drive 1 16 fs.inodeBitmap ∧
      (fs.metadataStored drive).Holds drive 17 16 fs.blockBitmap := by
  refine ⟨?_, ?_, ?_⟩
  · intro place inside
    have root : Ata.sectorOf 0 = 0 := rfl
    have sector : 0 + place / 512 = 0 := by omega
    have lane : place % 512 = place := by omega
    rw [root, sector, lane]
    exact metadataStored_superblock
  · intro place inside
    have first : Ata.sectorOf 1 = 1 := rfl
    rw [first]
    exact metadataStored_inodeBitmap inside
  · intro place inside
    have behind : Ata.sectorOf 17 = 17 := rfl
    rw [behind]
    exact metadataStored_blockBitmap inside

end Metadata

section Format

variable {fs : Diskfs} {drive : Byte}

/-- The state between the two calls. -/
def formatted (fs : Diskfs) (drive : Byte) (now : Word) : Diskfs :=
  Diskfs.inodeWritten { fs.blank with ata := fs.blank.metadataStored drive } drive 0 (Inode.fresh typeDir 0 now)

theorem format_eq (working : fs.ata.Working drive) (now : Word) :
    fs.format drive now = some (0, fs.formatted drive now) := by
  have one : (1 : Nat) ≠ 0 := by decide
  have sixteen : (16 : Nat) ≠ 0 := by decide
  have first := (working.store 0 1 Superblock.fresh).tick
  have second := (first.store 1 16 (Bitmap.set Bytes.zero 0)).tick
  have third := (second.store 17 16 Bytes.zero).tick
  rw [format, if_neg (by rw [working.driveExists]; simp)]
  simp only [writeSuperblock, writeBitmaps, working.writeSectors one, first.writeSectors sixteen,
    second.writeSectors sixteen, ne_eq, not_true_eq_false, ↓reduceIte]
  rw [@writeInode_eq _ drive 0 third (by decide), if_neg (by decide)]
  rfl

theorem formatted_working (working : fs.ata.Working drive) (now : Word) :
    (fs.formatted drive now).ata.Working drive := by
  have metadata : (fs.blank.metadataStored drive).Working drive := @metadataStored_working fs.blank drive working
  exact (metadata.tick.store _ _ _).tick

theorem formatted_sector (fs : Diskfs) (drive : Byte) (now : Word) {sector : Nat} (low : sector < 33) :
    (fs.formatted drive now).ata.sectors drive sector = (fs.blank.metadataStored drive).sectors drive sector :=
  inodeWritten_sector_other (by decide) _ (by omega)

theorem formatted_holds (fs : Diskfs) (drive : Byte) (now : Word) :
    (fs.formatted drive now).ata.Holds drive 0 1 (fs.formatted drive now).superblock ∧
      (fs.formatted drive now).ata.Holds drive 1 16 (fs.formatted drive now).inodeBitmap ∧
      (fs.formatted drive now).ata.Holds drive 17 16 (fs.formatted drive now).blockBitmap := by
  obtain ⟨superblock, inodeBitmap, blockBitmap⟩ := metadataStored_holds fs.blank drive
  have root : Ata.sectorOf 0 = 0 := rfl
  have first : Ata.sectorOf 1 = 1 := rfl
  have behind : Ata.sectorOf 17 = 17 := rfl
  refine ⟨?_, ?_, ?_⟩
  · intro place inside
    rw [formatted_sector fs drive now (by omega)]
    exact superblock place inside
  · intro place inside
    rw [formatted_sector fs drive now (by omega)]
    exact inodeBitmap place inside
  · intro place inside
    rw [formatted_sector fs drive now (by omega)]
    exact blockBitmap place inside

/-- Mounting reads back what is in memory already. -/
theorem mount_eq (working : fs.ata.Working drive) (now : Word) :
    ∃ transfers, (fs.formatted drive now).mount drive =
      (0, { (fs.formatted drive now).retime transfers with
        inodeCacheValid := fun _ => false, mountedDrive := drive }) := by
  have one : (1 : Nat) ≠ 0 := by decide
  have sixteen : (16 : Nat) ≠ 0 := by decide
  have first := formatted_working working now
  obtain ⟨superblockHeld, inodesHeld, blocksHeld⟩ := formatted_holds fs drive now
  have superblock := load_self superblockHeld
  have inodes : (fs.formatted drive now).ata.tick.load drive 1 16 (fs.formatted drive now).inodeBitmap =
      (fs.formatted drive now).inodeBitmap := load_self inodesHeld
  have blocks : (fs.formatted drive now).ata.tick.tick.load drive 17 16 (fs.formatted drive now).blockBitmap =
      (fs.formatted drive now).blockBitmap := load_self blocksHeld
  have magic : (fs.formatted drive now).superblock.magic = diskfsMagic := fresh_magic
  refine ⟨(fs.formatted drive now).ata.transfers + 1 + 1 + 1, ?_⟩
  rw [mount, if_neg (by rw [first.driveExists]; simp)]
  simp only [readSuperblock, readBitmaps, first.readSectors one, first.tick.readSectors sixteen,
    first.tick.tick.readSectors sixteen, superblock, inodes, blocks, magic, ne_eq, not_true_eq_false, ↓reduceIte]
  rfl

/-- `diskfs_format` and `diskfs_mount` lead to a consistent state with the root
directory alone. -/
theorem fresh_consistent (working : fs.ata.Working drive) (now : Word) :
    ∃ ready, (fs.formatted drive now).mount drive = (0, ready) ∧ Consistent ready drive := by
  obtain ⟨transfers, mount⟩ := mount_eq working now
  refine ⟨_, mount, ?_⟩
  generalize result : { (fs.formatted drive now).retime transfers with
    inodeCacheValid := fun _ => false, mountedDrive := drive } = ready
  have invalid (i : Nat) : ready.inodeCacheValid i ≠ true := by
    rw [← result]
    simp
  have root_only (ino : Nat) (allocated : ready.allocated ino) : ino = 0 := by
    have test : Bitmap.test (Bitmap.set Bytes.zero 0) ino = true := by
      have present := allocated.2
      rw [← result] at present
      exact present
    rw [Bitmap.test_set _ (by decide)] at test
    simp [Bitmap.test, Bytes.zero] at test
    exact test.symm
  have root : SameFile (Inode.fresh typeDir 0 now) (ready.onDisk drive 0) := by
    rw [← result]
    exact SameFile.of_bytes ((@onDisk_inodeWritten_self { fs.blank with ata := fs.blank.metadataStored drive } drive 0
      (by decide) _).narrow (by decide) (by decide))
  have nothing (slot : Nat × Nat) (block : Nat) : ready.holds (ready.onDisk drive) slot ≠ some block := by
    intro here
    obtain ⟨allocated, bound, nonzero, _⟩ := holds_eq_some.mp here
    rw [root_only _ allocated, root.block _ bound, fresh_block typeDir 0 now bound] at nonzero
    exact nonzero rfl
  refine ⟨⟨?_, ?_, ?_, ?_, ?_, ?_⟩, ?_, ?_⟩
  · rw [← result]
    exact ⟨(formatted_working working now).driveExists, (formatted_working working now).works⟩
  · rw [← result]
  · rw [← result]
    exact fresh_totalInodes
  · rw [← result]
    exact fresh_totalBlocks
  · intro ino allocated
    rw [root_only ino allocated]
    decide
  · intro i j _ _ valid
    exact absurd valid (invalid i)
  · intro i _ valid
    exact absurd valid (invalid i)
  · constructor
    · intro slot block here
      exact absurd here (nothing slot block)
    · intro slot other block here
      exact absurd here (nothing slot block)

end Format

end MexOS.Fs.Diskfs
