import MexOS.Fs.ReadAfterWrite
import MexOS.Fs.FileSystem

/-! What `diskfs_mount`, `diskfs_format` and `diskfs_init` of one drive leave of
the file system that is mounted from another, when they fail. -/

namespace MexOS.Fs

open MexOS.Machine

namespace Diskfs

/-- All that is in memory of the mounted file system is as it was. -/
structure Kept (fs after : Diskfs) : Prop where
  mountedDrive : after.mountedDrive = fs.mountedDrive
  superblock : Bytes.Same fs.superblock after.superblock 0 (512 * 1)
  inodeBitmap : Bytes.Same fs.inodeBitmap after.inodeBitmap 0 (512 * 16)
  blockBitmap : Bytes.Same fs.blockBitmap after.blockBitmap 0 (512 * 16)
  inodeCacheValid : ∀ i < 8, after.inodeCacheValid i = fs.inodeCacheValid i
  inodeCacheNum : ∀ i < 8, fs.inodeCacheValid i = true → after.inodeCacheNum i = fs.inodeCacheNum i
  inodeCache : ∀ i < 8, fs.inodeCacheValid i = true → Bytes.Same (fs.inodeCache i) (after.inodeCache i) 0 Inode.bytes

/-- The memory is kept, so the next `diskfs_sync` stores the mounted file
system's own superblock and bitmaps. -/
structure Unharmed (fs after : Diskfs) : Prop extends Kept fs after where
  sync : after.ata.Working fs.mountedDrive → ∀ sector < 33, ∀ place < 512,
    after.sync.2.ata.sectors fs.mountedDrive sector place =
      (fs.metadataStored fs.mountedDrive).sectors fs.mountedDrive sector place

section Sync

variable {fs after : Diskfs} {drive : Byte}

/-- The sectors in front of the inode table after a `diskfs_sync`. -/
theorem metadataStored_congr (superblock : Bytes.Same fs.superblock after.superblock 0 (512 * 1))
    (inodeBitmap : Bytes.Same fs.inodeBitmap after.inodeBitmap 0 (512 * 16))
    (blockBitmap : Bytes.Same fs.blockBitmap after.blockBitmap 0 (512 * 16)) {sector place : Nat} (low : sector < 33)
    (inside : place < 512) :
    (after.metadataStored drive).sectors drive sector place = (fs.metadataStored drive).sectors drive sector place := by
  rcases Nat.lt_trichotomy sector 0 with impossible | first | later
  · omega
  · subst first
    rw [metadataStored_superblock, metadataStored_superblock]
    exact superblock place (Nat.zero_le _) (by omega)
  by_cases inodes : sector < 17
  · obtain ⟨spot, bound, rfl, rfl⟩ : ∃ spot < 512 * 16, sector = 1 + spot / 512 ∧ place = spot % 512 :=
      ⟨512 * (sector - 1) + place, by omega, by omega, by omega⟩
    rw [metadataStored_inodeBitmap bound, metadataStored_inodeBitmap bound]
    exact inodeBitmap spot (Nat.zero_le _) bound
  · obtain ⟨spot, bound, rfl, rfl⟩ : ∃ spot < 512 * 16, sector = 17 + spot / 512 ∧ place = spot % 512 :=
      ⟨512 * (sector - 17) + place, by omega, by omega, by omega⟩
    rw [metadataStored_blockBitmap bound, metadataStored_blockBitmap bound]
    exact blockBitmap spot (Nat.zero_le _) bound

theorem sync_eq (working : fs.ata.Working fs.mountedDrive) : fs.sync.2.ata = fs.metadataStored fs.mountedDrive := by
  have one : (1 : Nat) ≠ 0 := by decide
  have sixteen : (16 : Nat) ≠ 0 := by decide
  have first := (working.store 0 1 fs.superblock).tick
  have second := (first.store 1 16 fs.inodeBitmap).tick
  have mounted : fs.mountedDrive ≠ 0xFF := by
    intro unmounted
    have present := working.driveExists
    rw [unmounted, Ata.driveExists] at present
    simp at present
  rw [sync, if_neg mounted]
  simp only [writeSuperblock, writeBitmaps, working.writeSectors one, first.writeSectors sixteen,
    second.writeSectors sixteen, ne_eq, not_true_eq_false, ↓reduceIte]
  rfl

theorem Kept.unharmed (kept : Kept fs after) : Unharmed fs after := by
  refine ⟨kept, ?_⟩
  intro working sector low place inside
  rw [← kept.mountedDrive] at working ⊢
  rw [sync_eq working]
  exact metadataStored_congr kept.superblock kept.inodeBitmap kept.blockBitmap low inside

end Sync

section Mount

variable {fs : Diskfs} {drive : Byte}

/-- The superblock can be read and has the magic number. -/
def Recognised (fs : Diskfs) (drive : Byte) : Prop :=
  fs.ata.outcome fs.ata.transfers = none ∧ Superblock.magic (fs.ata.sectors drive 0) = diskfsMagic

instance (fs : Diskfs) (drive : Byte) : Decidable (fs.Recognised drive) := inferInstanceAs (Decidable (_ ∧ _))

/-- The bitmaps can be read as well. -/
def Mountable (fs : Diskfs) (drive : Byte) : Prop :=
  fs.Recognised drive ∧ fs.ata.outcome (fs.ata.transfers + 1) = none ∧ fs.ata.outcome (fs.ata.transfers + 2) = none

instance (fs : Diskfs) (drive : Byte) : Decidable (fs.Mountable drive) := inferInstanceAs (Decidable (_ ∧ _ ∧ _))

/-- How many sectors of the superblock and of each bitmap `diskfs_mount` takes
in before it ends. -/
def superblockIntake (fs : Diskfs) : Nat := fs.ata.moved fs.ata.transfers 1

def inodeIntake (fs : Diskfs) (drive : Byte) : Nat :=
  if fs.Recognised drive then fs.ata.moved (fs.ata.transfers + 1) 16 else 0

def blockIntake (fs : Diskfs) (drive : Byte) : Nat :=
  if fs.Recognised drive ∧ fs.ata.outcome (fs.ata.transfers + 1) = none then fs.ata.moved (fs.ata.transfers + 2) 16
  else 0

/-- How many transfers it makes. -/
def mountTransfers (fs : Diskfs) (drive : Byte) : Nat :=
  if ¬ fs.Recognised drive then 1 else if fs.ata.outcome (fs.ata.transfers + 1) = none then 3 else 2

/-- What it has in memory by then. -/
def takenIn (fs : Diskfs) (drive : Byte) : Diskfs :=
  { fs.retime (fs.ata.transfers + fs.mountTransfers drive) with
    superblock := fs.ata.load drive 0 fs.superblockIntake fs.superblock
    inodeBitmap := fs.ata.load drive 1 (fs.inodeIntake drive) fs.inodeBitmap
    blockBitmap := fs.ata.load drive 17 (fs.blockIntake drive) fs.blockBitmap }

theorem load_none (ata : Ata) (drive : Byte) (lba : Word) (buffer : Bytes) : ata.load drive lba 0 buffer = buffer := by
  funext place
  rw [Ata.load, if_neg (by omega)]

theorem magic_load (ata : Ata) (drive : Byte) (superblock : Superblock) :
    Superblock.magic (ata.load drive 0 1 superblock) = Superblock.magic (ata.sectors drive 0) := by
  have first : Bytes.Same (ata.sectors drive 0) (ata.load drive 0 1 superblock) 0 512 := by
    intro place _ inside
    exact Ata.load_one ata drive 0 superblock inside
  exact first.word (Nat.le_refl _) (by decide)

theorem readBitmaps_works (present : fs.ata.driveExists drive = true) (works : fs.ata.outcome fs.ata.transfers = none) :
    fs.readBitmaps drive =
      (if fs.ata.outcome (fs.ata.transfers + 1) = none then 0 else -1,
        { fs.retime (fs.ata.transfers + 2) with
          inodeBitmap := fs.ata.load drive 1 16 fs.inodeBitmap
          blockBitmap := fs.ata.load drive 17 (fs.ata.moved (fs.ata.transfers + 1) 16) fs.blockBitmap }) := by
  have next : fs.ata.tick.driveExists drive = true := present
  have sixteen : (16 : Nat) ≠ 0 := by decide
  simp only [readBitmaps, Ata.readSectors_present present sixteen, Ata.readSectors_present next sixteen, works,
    Ata.moved_of_works works, ne_eq, not_true_eq_false, ↓reduceIte]
  rfl

theorem readBitmaps_fails (present : fs.ata.driveExists drive = true) (fails : fs.ata.outcome fs.ata.transfers ≠ none) :
    fs.readBitmaps drive =
      (-1, { fs.retime (fs.ata.transfers + 1) with
        inodeBitmap := fs.ata.load drive 1 (fs.ata.moved fs.ata.transfers 16) fs.inodeBitmap }) := by
  have sixteen : (16 : Nat) ≠ 0 := by decide
  simp only [readBitmaps, Ata.readSectors_present present sixteen, if_neg fails]
  rfl

/-- `diskfs_mount` of a drive that is there overwrites the memory first and
decides then. -/
theorem mount_present (present : fs.ata.driveExists drive = true) :
    fs.mount drive =
      if fs.Mountable drive then
        (0, { fs.takenIn drive with inodeCacheValid := fun _ => false, mountedDrive := drive })
      else (-1, fs.takenIn drive) := by
  rw [mount, if_neg (by simp [present])]
  simp only [readSuperblock, Ata.readSectors_present present Nat.one_ne_zero]
  by_cases first : fs.ata.outcome fs.ata.transfers = none
  · by_cases magic : Superblock.magic (fs.ata.sectors drive 0) = diskfsMagic
    · have recognised : fs.Recognised drive := ⟨first, magic⟩
      rw [if_neg (by simp [first]), Ata.moved_of_works first, if_neg (not_not.mpr ((magic_load _ _ _).trans magic))]
      generalize read : Diskfs.mk fs.ata.tick fs.mountedDrive (fs.ata.load drive 0 1 fs.superblock) fs.inodeBitmap
        fs.blockBitmap fs.inodeCache fs.inodeCacheNum fs.inodeCacheValid fs.cacheIdx = mid
      have midPresent : mid.ata.driveExists drive = true := read ▸ present
      by_cases second : fs.ata.outcome (fs.ata.transfers + 1) = none
      · rw [readBitmaps_works midPresent (read ▸ second), ← read]
        by_cases third : fs.ata.outcome (fs.ata.transfers + 2) = none
        · have blocks : fs.ata.tick.outcome (fs.ata.tick.transfers + 1) = none := third
          have mountable : fs.Mountable drive := ⟨recognised, second, third⟩
          rw [if_pos mountable]
          simp only [takenIn, superblockIntake, inodeIntake, blockIntake, mountTransfers, Ata.moved_of_works first,
            Ata.moved_of_works second, recognised, second, blocks, and_self, not_true_eq_false, ne_eq, ↓reduceIte]
          rfl
        · have blocks : ¬ fs.ata.tick.outcome (fs.ata.tick.transfers + 1) = none := third
          have fails : ¬ fs.Mountable drive := fun mountable => third mountable.2.2
          rw [if_neg fails]
          simp only [takenIn, superblockIntake, inodeIntake, blockIntake, mountTransfers, Ata.moved_of_works first,
            Ata.moved_of_works second, recognised, second, blocks, and_self, not_true_eq_false, ne_eq, ↓reduceIte]
          rfl
      · have fails : ¬ fs.Mountable drive := fun mountable => second mountable.2.1
        rw [readBitmaps_fails midPresent (read ▸ second), ← read, if_neg fails]
        simp only [takenIn, superblockIntake, inodeIntake, blockIntake, mountTransfers, Ata.moved_of_works first,
          recognised, second, and_false, not_true_eq_false, ↓reduceIte, load_none]
        rfl
    · have unknown : ¬ fs.Recognised drive := fun recognised => magic recognised.2
      have fails : ¬ fs.Mountable drive := fun mountable => unknown mountable.1
      rw [if_neg (by simp [first]), Ata.moved_of_works first,
        if_pos fun same => magic ((magic_load _ _ _).symm.trans same), if_neg fails]
      simp only [takenIn, superblockIntake, inodeIntake, blockIntake, mountTransfers, Ata.moved_of_works first,
        unknown, false_and, not_false_eq_true, ↓reduceIte, load_none]
      rfl
  · have unknown : ¬ fs.Recognised drive := fun recognised => first recognised.1
    have fails : ¬ fs.Mountable drive := fun mountable => unknown mountable.1
    rw [if_pos (by simp [first]), if_neg fails]
    simp only [takenIn, superblockIntake, inodeIntake, blockIntake, mountTransfers, unknown, false_and,
      not_false_eq_true, ↓reduceIte, load_none]
    rfl

/-- What the mount takes in is what the memory holds already. -/
structure IntakeHeld (fs : Diskfs) (drive : Byte) : Prop where
  superblock : fs.ata.Holds drive 0 fs.superblockIntake fs.superblock
  inodeBitmap : fs.ata.Holds drive 1 (fs.inodeIntake drive) fs.inodeBitmap
  blockBitmap : fs.ata.Holds drive 17 (fs.blockIntake drive) fs.blockBitmap

theorem inodeIntake_le (fs : Diskfs) (drive : Byte) : fs.inodeIntake drive ≤ 16 := by
  unfold inodeIntake
  split
  · exact Ata.moved_le _ _ _
  · exact Nat.zero_le _

theorem blockIntake_le (fs : Diskfs) (drive : Byte) : fs.blockIntake drive ≤ 16 := by
  unfold blockIntake
  split
  · exact Ata.moved_le _ _ _
  · exact Nat.zero_le _

theorem kept_takenIn_iff : Kept fs (fs.takenIn drive) ↔ fs.IntakeHeld drive := by
  constructor
  · intro kept
    exact ⟨(Ata.same_load_iff (Ata.moved_le _ _ _) _ _).mp kept.superblock,
      (Ata.same_load_iff (inodeIntake_le fs drive) _ _).mp kept.inodeBitmap,
      (Ata.same_load_iff (blockIntake_le fs drive) _ _).mp kept.blockBitmap⟩
  · intro held
    refine ⟨rfl, ?_, ?_, ?_, fun _ _ => rfl, fun _ _ _ => rfl, fun _ _ _ => .refl _ _ _⟩
    · exact (Ata.same_load_iff (Ata.moved_le _ _ _) _ _).mpr held.superblock
    · exact (Ata.same_load_iff (inodeIntake_le fs drive) _ _).mpr held.inodeBitmap
    · exact (Ata.same_load_iff (blockIntake_le fs drive) _ _).mpr held.blockBitmap

/-- The drive is not there, or it is mounted, or the mount fails on sectors
that the memory holds already. -/
def MountSafe (fs : Diskfs) (drive : Byte) : Prop :=
  fs.ata.driveExists drive = false ∨ fs.Mountable drive ∨ fs.IntakeHeld drive

theorem Kept.refl (fs : Diskfs) : Kept fs fs :=
  ⟨rfl, .refl _ _ _, .refl _ _ _, .refl _ _ _, fun _ _ => rfl, fun _ _ _ => rfl, fun _ _ _ => .refl _ _ _⟩

theorem mount_kept_iff :
    (∀ ret after, fs.mount drive = (ret, after) → ret < 0 → Kept fs after) ↔ fs.MountSafe drive := by
  cases present : fs.ata.driveExists drive with
  | false =>
    refine ⟨fun _ => .inl present, ?_⟩
    intro _ ret after call _
    rw [mount, if_pos (by simp [present])] at call
    rw [← (Prod.mk.inj call).2]
    exact .refl fs
  | true =>
    rw [mount_present present]
    by_cases mountable : fs.Mountable drive
    · refine ⟨fun _ => .inr (.inl mountable), ?_⟩
      intro _ ret after call failed
      rw [if_pos mountable] at call
      rw [← (Prod.mk.inj call).1] at failed
      omega
    · rw [if_neg mountable]
      constructor
      · intro property
        exact .inr (.inr (kept_takenIn_iff.mp (property (-1) _ rfl (by decide))))
      · rintro (absent | impossible | held) ret after call _
        · rw [present] at absent
          cases absent
        · exact absurd impossible mountable
        · rw [← (Prod.mk.inj call).2]
          exact kept_takenIn_iff.mpr held

end Mount

section Format

variable {fs : Diskfs} {drive : Byte} {now : Word}

/-- The memory holds what `diskfs_format` fills in. -/
structure IsBlank (fs : Diskfs) : Prop where
  superblock : Bytes.Same fs.superblock Superblock.fresh 0 (512 * 1)
  inodeBitmap : Bytes.Same fs.inodeBitmap (Bitmap.set Bytes.zero 0) 0 (512 * 16)
  blockBitmap : Bytes.Same fs.blockBitmap Bytes.zero 0 (512 * 16)

/-- A `write_inode` whose two transfers work. -/
theorem writeInode_works (present : fs.ata.driveExists drive = true) (works : fs.ata.Works 0 2) {ino : Word}
    (valid : ino.toNat < maxInodes) (slot : ino.toNat % 4 ≠ 3) (inode : Inode) :
    fs.writeInode drive ino inode = some (0, fs.inodeWritten drive ino inode) := by
  have next : fs.ata.tick.driveExists drive = true := present
  have first : fs.ata.outcome fs.ata.transfers = none := works 0 (by decide)
  have second : fs.ata.tick.outcome fs.ata.tick.transfers = none := works 1 (by decide)
  rw [writeInode, if_neg (by omega), Ata.readSectors_present present Nat.one_ne_zero, if_pos first,
    Ata.moved_of_works first]
  simp only [ne_eq, not_true_eq_false, ↓reduceIte]
  rw [if_neg (slot_fits.mpr slot), Ata.writeSectors_present next Nat.one_ne_zero, if_pos second,
    Ata.moved_of_works second]
  simp only [not_true_eq_false, ↓reduceIte, inodeWritten]
  cases fs.cached ino <;> rfl

/-- Else it changes nothing but the drive. -/
theorem writeInode_fails (present : fs.ata.driveExists drive = true) (fails : ¬ fs.ata.Works 0 2) {ino : Word}
    (valid : ino.toNat < maxInodes) (slot : ino.toNat % 4 ≠ 3) (inode : Inode) :
    ∃ ata, fs.writeInode drive ino inode = some (-1, { fs with ata }) := by
  have next : fs.ata.tick.driveExists drive = true := present
  rw [writeInode, if_neg (by omega), Ata.readSectors_present present Nat.one_ne_zero]
  by_cases first : fs.ata.outcome fs.ata.transfers = none
  · have second : ¬ fs.ata.tick.outcome fs.ata.tick.transfers = none := by
      intro second
      apply fails
      intro i bound
      obtain rfl | rfl : i = 0 ∨ i = 1 := by omega
      · exact first
      · exact second
    rw [if_pos first]
    simp only [ne_eq, not_true_eq_false, ↓reduceIte]
    rw [if_neg (slot_fits.mpr slot), Ata.writeSectors_present next Nat.one_ne_zero, if_neg second, if_pos (by simp)]
    exact ⟨_, rfl⟩
  · rw [if_neg first]
    exact ⟨_, rfl⟩

theorem writeSuperblock_present (present : fs.ata.driveExists drive = true) :
    fs.writeSuperblock drive =
      (if fs.ata.outcome fs.ata.transfers = none then 0 else -1,
        { fs with ata := (fs.ata.store drive 0 (fs.ata.moved fs.ata.transfers 1) fs.superblock).tick }) := by
  rw [writeSuperblock, Ata.writeSectors_present present Nat.one_ne_zero]

theorem writeBitmaps_works (present : fs.ata.driveExists drive = true) (works : fs.ata.outcome fs.ata.transfers = none) :
    ∃ ata, fs.writeBitmaps drive =
      (if fs.ata.outcome (fs.ata.transfers + 1) = none then 0 else -1, { fs with ata }) ∧
      (fs.ata.outcome (fs.ata.transfers + 1) = none →
        ata = ((fs.ata.store drive 1 16 fs.inodeBitmap).tick.store drive 17 16 fs.blockBitmap).tick) := by
  have sixteen : (16 : Nat) ≠ 0 := by decide
  have next : (fs.ata.store drive 1 16 fs.inodeBitmap).tick.driveExists drive = true := present
  simp only [writeBitmaps, Ata.writeSectors_present present sixteen, if_pos works, Ata.moved_of_works works]
  rw [if_neg (by simp), Ata.writeSectors_present next sixteen]
  refine ⟨_, rfl, ?_⟩
  intro second
  have blocks : (fs.ata.store drive 1 16 fs.inodeBitmap).tick.outcome
      (fs.ata.store drive 1 16 fs.inodeBitmap).tick.transfers = none := second
  rw [Ata.moved_of_works blocks]

theorem writeBitmaps_fails (present : fs.ata.driveExists drive = true) (fails : fs.ata.outcome fs.ata.transfers ≠ none) :
    ∃ ata, fs.writeBitmaps drive = (-1, { fs with ata }) := by
  have sixteen : (16 : Nat) ≠ 0 := by decide
  simp only [writeBitmaps, Ata.writeSectors_present present sixteen, if_neg fails]
  exact ⟨_, rfl⟩

/-- The steps of `diskfs_format` of a drive that is there. -/
theorem format_steps (present : fs.ata.driveExists drive = true) (now : Word) :
    fs.format drive now =
      if (fs.blank.writeSuperblock drive).1 ≠ 0 then some (-1, (fs.blank.writeSuperblock drive).2)
      else if ((fs.blank.writeSuperblock drive).2.writeBitmaps drive).1 ≠ 0 then
        some (-1, ((fs.blank.writeSuperblock drive).2.writeBitmaps drive).2)
      else
        (((fs.blank.writeSuperblock drive).2.writeBitmaps drive).2.writeInode drive 0 (Inode.fresh typeDir 0 now)).bind
          fun root => if root.1 ≠ 0 then some (-1, root.2) else some (0, root.2) := by
  rw [format, if_neg (by simp [present])]
  rfl

/-- It answers 0 when its five transfers work; else one of them fails, with
the memory filled in. -/
theorem format_present (present : fs.ata.driveExists drive = true) (now : Word) :
    (fs.ata.Works 0 5 ∧ fs.format drive now = some (0, fs.formatted drive now)) ∨
      ¬ fs.ata.Works 0 5 ∧ ∃ ata, fs.format drive now = some (-1, { fs.blank with ata }) := by
  have blankPresent : fs.blank.ata.driveExists drive = true := present
  rw [format_steps present, writeSuperblock_present blankPresent]
  by_cases superblock : fs.blank.ata.outcome fs.blank.ata.transfers = none
  · rw [if_pos superblock, if_neg (by simp), Ata.moved_of_works superblock]
    generalize stored : Diskfs.mk (fs.blank.ata.store drive 0 1 fs.blank.superblock).tick fs.blank.mountedDrive
      fs.blank.superblock fs.blank.inodeBitmap fs.blank.blockBitmap fs.blank.inodeCache fs.blank.inodeCacheNum
      fs.blank.inodeCacheValid fs.blank.cacheIdx = mid
    have midPresent : mid.ata.driveExists drive = true := stored ▸ present
    by_cases inodes : mid.ata.outcome mid.ata.transfers = none
    · obtain ⟨ata, bitmaps, complete⟩ := writeBitmaps_works midPresent inodes
      rw [bitmaps]
      by_cases blocks : mid.ata.outcome (mid.ata.transfers + 1) = none
      · have metadata : { mid with ata } = { fs.blank with ata := fs.blank.metadataStored drive } := by
          rw [complete blocks, ← stored]
          rfl
        have metadataPresent : (fs.blank.metadataStored drive).driveExists drive = true := present
        have second : fs.ata.outcome (fs.ata.transfers + 1) = none := by
          rw [← stored] at inodes
          exact inodes
        have third : fs.ata.outcome (fs.ata.transfers + 2) = none := by
          rw [← stored] at blocks
          exact blocks
        have split : (fs.blank.metadataStored drive).Works 0 2 ↔ fs.ata.Works 0 5 := by
          constructor
          · intro works i bound
            match i, bound with
            | 0, _ => exact superblock
            | 1, _ => exact second
            | 2, _ => exact third
            | 3, _ => exact works 0 (by decide)
            | 4, _ => exact works 1 (by decide)
          · intro works i bound
            match i, bound with
            | 0, _ => exact works 3 (by decide)
            | 1, _ => exact works 4 (by decide)
        rw [if_pos blocks, if_neg (by simp), metadata]
        by_cases root : (fs.blank.metadataStored drive).Works 0 2
        · left
          refine ⟨split.mp root, ?_⟩
          rw [@writeInode_works { fs.blank with ata := fs.blank.metadataStored drive } drive metadataPresent root 0
            (by decide) (by decide)]
          rfl
        · right
          obtain ⟨ata, write⟩ := @writeInode_fails { fs.blank with ata := fs.blank.metadataStored drive } drive
            metadataPresent root 0 (by decide) (by decide) (Inode.fresh typeDir 0 now)
          refine ⟨fun works => root (split.mpr works), ata, ?_⟩
          rw [write]
          rfl
      · right
        refine ⟨fun works => blocks (stored ▸ works 2 (by decide)), ata, ?_⟩
        rw [if_neg blocks, if_pos (by simp), ← stored]
    · right
      obtain ⟨ata, bitmaps⟩ := writeBitmaps_fails midPresent inodes
      refine ⟨fun works => inodes (stored ▸ works 1 (by decide)), ata, ?_⟩
      rw [bitmaps, if_pos (by simp), ← stored]
  · rw [if_neg superblock, if_pos (by simp)]
    exact .inr ⟨fun works => superblock (works 0 (by decide)), _, rfl⟩

theorem kept_blank_iff (ata : Ata) : Kept fs { fs.blank with ata } ↔ fs.IsBlank := by
  constructor
  · intro kept
    exact ⟨kept.superblock, kept.inodeBitmap, kept.blockBitmap⟩
  · intro blank
    exact ⟨rfl, blank.superblock, blank.inodeBitmap, blank.blockBitmap, fun _ _ => rfl, fun _ _ _ => rfl,
      fun _ _ _ => .refl _ _ _⟩

/-- The drive is not there, or the format comes to its end, or the memory is
that of a drive just formatted already. -/
def FormatSafe (fs : Diskfs) (drive : Byte) : Prop :=
  fs.ata.driveExists drive = false ∨ fs.ata.Works 0 5 ∨ fs.IsBlank

theorem format_kept_iff :
    (∀ ret after, fs.format drive now = some (ret, after) → ret < 0 → Kept fs after) ↔ fs.FormatSafe drive := by
  cases present : fs.ata.driveExists drive with
  | false =>
    refine ⟨fun _ => .inl present, ?_⟩
    intro _ ret after call _
    rw [format, if_pos (by simp [present])] at call
    rw [← (Prod.mk.inj (Option.some.inj call)).2]
    exact .refl fs
  | true =>
    rcases @format_present fs drive present now with ⟨works, result⟩ | ⟨fails, ata, result⟩
    · refine ⟨fun _ => .inr (.inl works), ?_⟩
      intro _ ret after call failed
      rw [result] at call
      rw [← (Prod.mk.inj (Option.some.inj call)).1] at failed
      omega
    · rw [result]
      constructor
      · intro property
        exact .inr (.inr ((kept_blank_iff ata).mp (property (-1) _ rfl (by decide))))
      · rintro (absent | impossible | blank) ret after call _
        · rw [present] at absent
          cases absent
        · exact absurd impossible fails
        · rw [← (Prod.mk.inj (Option.some.inj call)).2]
          exact (kept_blank_iff ata).mpr blank

end Format

section Init

variable {fs : Diskfs} {drive : Byte} {now : Word}

/-- A drive that holds all of the memory holds what a mount takes in. -/
theorem IntakeHeld.of_whole (superblock : fs.ata.Holds drive 0 1 fs.superblock)
    (inodeBitmap : fs.ata.Holds drive 1 16 fs.inodeBitmap) (blockBitmap : fs.ata.Holds drive 17 16 fs.blockBitmap) :
    fs.IntakeHeld drive :=
  ⟨superblock.fewer (Ata.moved_le _ _ _), inodeBitmap.fewer (inodeIntake_le _ _), blockBitmap.fewer (blockIntake_le _ _)⟩

/-- After `diskfs_format` the drive holds what is in memory. -/
theorem formatted_held (fs : Diskfs) (drive : Byte) (now : Word) : (fs.formatted drive now).IntakeHeld drive := by
  obtain ⟨superblock, inodeBitmap, blockBitmap⟩ := formatted_holds fs drive now
  exact .of_whole superblock inodeBitmap blockBitmap

theorem formatted_magic (fs : Diskfs) (drive : Byte) (now : Word) :
    Superblock.magic ((fs.formatted drive now).ata.sectors drive 0) = diskfsMagic := by
  have stored : (fs.formatted drive now).ata.sectors drive 0 = Superblock.fresh := by
    funext place
    rw [formatted_sector fs drive now (by decide)]
    exact metadataStored_superblock
  rw [stored, fresh_magic]

/-- What is on the drive already changes nothing. -/
theorem IntakeHeld.takenIn (held : fs.IntakeHeld drive) :
    fs.takenIn drive = fs.retime (fs.ata.transfers + fs.mountTransfers drive) := by
  rw [Diskfs.takenIn, load_self held.superblock, load_self held.inodeBitmap, load_self held.blockBitmap]
  rfl

/-- A cached root is the one that `diskfs_format` fills in. -/
def RootIsFresh (fs : Diskfs) (now : Word) : Prop :=
  ∀ i, fs.cached 0 = some i → Bytes.Same (fs.inodeCache i) (Inode.fresh typeDir 0 now) 0 Inode.bytes

/-- The drive is not there, or it can be mounted at once or after a format, or
the memory is that of a drive just formatted already. -/
def InitSafe (fs : Diskfs) (drive : Byte) (now : Word) : Prop :=
  fs.ata.driveExists drive = false ∨ fs.Mountable drive ∨ fs.ata.Works (fs.mountTransfers drive) 8 ∨
    fs.IsBlank ∧ (fs.ata.Works (fs.mountTransfers drive) 5 → fs.RootIsFresh now)

theorem kept_formatted_iff {first : Diskfs} (memory : first.mountedDrive = fs.mountedDrive ∧
      first.inodeCache = fs.inodeCache ∧ first.inodeCacheNum = fs.inodeCacheNum ∧
      first.inodeCacheValid = fs.inodeCacheValid) (transfers : Nat) :
    Kept fs ((first.formatted drive now).retime transfers) ↔ fs.IsBlank ∧ fs.RootIsFresh now := by
  obtain ⟨mountedDrive, inodeCache, inodeCacheNum, inodeCacheValid⟩ := memory
  have lookup : first.cached 0 = fs.cached 0 := by rw [cached, cached, inodeCacheNum, inodeCacheValid]
  have written : ((first.formatted drive now).retime transfers).inodeCache =
      (fs.cached 0).elim fs.inodeCache fun i => Function.update fs.inodeCache i (Inode.fresh typeDir 0 now) := by
    rw [← lookup, ← inodeCache]
    exact inodeCache_inodeWritten { first.blank with ata := first.blank.metadataStored drive } drive 0 (Inode.fresh typeDir 0 now)
  constructor
  · intro kept
    refine ⟨⟨kept.superblock, kept.inodeBitmap, kept.blockBitmap⟩, ?_⟩
    intro i hit
    obtain ⟨bound, valid, _⟩ := of_cached hit
    have same := kept.inodeCache i bound valid
    simp only [written, hit, Option.elim_some, Function.update_self] at same
    exact same
  · rintro ⟨blank, root⟩
    refine ⟨mountedDrive, blank.superblock, blank.inodeBitmap, blank.blockBitmap, ?_, ?_, ?_⟩
    · intro i _
      exact congrFun inodeCacheValid i
    · intro i _ _
      exact congrFun inodeCacheNum i
    · intro i _ _
      cases hit : fs.cached 0 with
      | none =>
        simp only [written, hit, Option.elim_none]
        exact .refl _ _ _
      | some j =>
        simp only [written, hit, Option.elim_some]
        by_cases same : i = j
        · subst same
          rw [Function.update_self]
          exact root i hit
        · rw [Function.update_of_ne same]
          exact .refl _ _ _

/-- The steps of `diskfs_init` when the mount fails. -/
theorem init_steps {first : Diskfs} (mount : fs.mount drive = (-1, first)) (now : Word) :
    fs.init drive now = (first.format drive now).bind fun result =>
      if result.1 ≠ 0 then some (-1, result.2) else some (result.2.mount drive) := by
  rw [init, mount]
  rfl

/-- `diskfs_init` of a drive that cannot be mounted as it is. -/
theorem init_present (present : fs.ata.driveExists drive = true) (unmountable : ¬ fs.Mountable drive) (now : Word) :
    (fs.ata.Works (fs.mountTransfers drive) 8 ∧ ∃ after, fs.init drive now = some (0, after)) ∨
      ¬ fs.ata.Works (fs.mountTransfers drive) 8 ∧ fs.ata.Works (fs.mountTransfers drive) 5 ∧
        (∃ transfers, fs.init drive now = some (-1, ((fs.takenIn drive).formatted drive now).retime transfers)) ∨
      ¬ fs.ata.Works (fs.mountTransfers drive) 5 ∧ ∃ ata, fs.init drive now = some (-1, { fs.blank with ata }) := by
  have mount : fs.mount drive = (-1, fs.takenIn drive) := by rw [mount_present present, if_neg unmountable]
  have takenPresent : (fs.takenIn drive).ata.driveExists drive = true := present
  have formattedPresent : ((fs.takenIn drive).formatted drive now).ata.driveExists drive = true := present
  rw [init_steps mount]
  rcases @format_present (fs.takenIn drive) drive takenPresent now with ⟨works, format⟩ | ⟨fails, ata, format⟩
  · have five : fs.ata.Works (fs.mountTransfers drive) 5 := works
    rw [format, Option.bind_some, if_neg (by simp), mount_present formattedPresent]
    by_cases again : ((fs.takenIn drive).formatted drive now).Mountable drive
    · left
      refine ⟨?_, ?_⟩
      · obtain ⟨⟨superblock, _⟩, inodes, blocks⟩ := again
        intro i bound
        by_cases early : i < 5
        · exact five i early
        obtain rfl | rfl | rfl : i = 5 ∨ i = 6 ∨ i = 7 := by omega
        · exact superblock
        · exact inodes
        · exact blocks
      · rw [if_pos again]
        exact ⟨_, rfl⟩
    · right
      left
      refine ⟨?_, five, ?_⟩
      · intro eight
        apply again
        exact ⟨⟨eight 5 (by decide), formatted_magic _ _ _⟩, eight 6 (by decide), eight 7 (by decide)⟩
      · rw [if_neg again, (formatted_held (fs.takenIn drive) drive now).takenIn]
        exact ⟨_, rfl⟩
  · right
    right
    refine ⟨fails, ata, ?_⟩
    rw [format]
    rfl

theorem init_kept_iff :
    (∀ ret after, fs.init drive now = some (ret, after) → ret < 0 → Kept fs after) ↔ fs.InitSafe drive now := by
  cases present : fs.ata.driveExists drive with
  | false =>
    refine ⟨fun _ => .inl present, ?_⟩
    intro _ ret after call _
    have mount : fs.mount drive = (-1, fs) := by rw [Diskfs.mount, if_pos (by simp [present])]
    have format : fs.format drive now = some (-1, fs) := by
      rw [Diskfs.format, if_pos (by simp [present])]
      rfl
    rw [init_steps mount, format] at call
    rw [← (Prod.mk.inj (Option.some.inj call)).2]
    exact .refl fs
  | true =>
    by_cases mountable : fs.Mountable drive
    · refine ⟨fun _ => .inr (.inl mountable), ?_⟩
      intro _ ret after call failed
      rw [init, mount_present present, if_pos mountable] at call
      rw [← (Prod.mk.inj (Option.some.inj call)).1] at failed
      omega
    rcases @init_present fs drive present mountable now with
      ⟨eight, after, result⟩ | ⟨fails, five, transfers, result⟩ | ⟨fails, ata, result⟩
    · refine ⟨fun _ => .inr (.inr (.inl eight)), ?_⟩
      intro _ ret after call failed
      rw [result] at call
      rw [← (Prod.mk.inj (Option.some.inj call)).1] at failed
      omega
    · have kept := @kept_formatted_iff fs drive now (fs.takenIn drive) ⟨rfl, rfl, rfl, rfl⟩ transfers
      rw [result]
      constructor
      · intro property
        obtain ⟨blank, root⟩ := kept.mp (property (-1) _ rfl (by decide))
        exact .inr (.inr (.inr ⟨blank, fun _ => root⟩))
      · rintro (absent | impossible | impossible | ⟨blank, root⟩) ret after call _
        · rw [present] at absent
          cases absent
        · exact absurd impossible mountable
        · exact absurd impossible fails
        · rw [← (Prod.mk.inj (Option.some.inj call)).2]
          exact kept.mpr ⟨blank, root five⟩
    · rw [result]
      constructor
      · intro property
        have blank := (kept_blank_iff ata).mp (property (-1) _ rfl (by decide))
        exact .inr (.inr (.inr ⟨blank, fun works => absurd works fails⟩))
      · rintro (absent | impossible | impossible | ⟨blank, _⟩) ret after call _
        · rw [present] at absent
          cases absent
        · exact absurd impossible mountable
        · exact absurd (fun i bound => impossible i (by omega)) fails
        · rw [← (Prod.mk.inj (Option.some.inj call)).2]
          exact (kept_blank_iff ata).mpr blank

end Init

/-- A failed `diskfs_mount`, `diskfs_format` or `diskfs_init` leaves the mounted
file system unharmed exactly when it fails before it stores anything else than
what the memory holds. -/
theorem failed_mount_unharmed_iff (fs : Diskfs) (drive : Byte) (now : Word) :
    ((∀ ret after, fs.mount drive = (ret, after) → ret < 0 → Unharmed fs after) ↔ fs.MountSafe drive) ∧
    ((∀ ret after, fs.format drive now = some (ret, after) → ret < 0 → Unharmed fs after) ↔ fs.FormatSafe drive) ∧
    ((∀ ret after, fs.init drive now = some (ret, after) → ret < 0 → Unharmed fs after) ↔ fs.InitSafe drive now) := by
  have same (after : Diskfs) : Unharmed fs after ↔ Kept fs after := ⟨fun unharmed => unharmed.toKept, fun kept => kept.unharmed⟩
  simp only [same]
  exact ⟨mount_kept_iff, format_kept_iff, init_kept_iff⟩

theorem zeroDrive_consistent : Consistent zeroDrive 0 := by
  obtain ⟨ready, mount, consistent⟩ := fresh_consistent (uniform_working 0 0 (by decide)) 0
  have same := (Prod.mk.inj (zeroDrive_ready.2.symm.trans mount)).2
  rw [same]
  exact consistent

/-- Mounting an empty drive over a fresh file system fails for want of the
magic number, and the next `diskfs_sync` stores the empty superblock to the
drive that is still mounted, which cannot be mounted again. -/
theorem failed_mount_replaces_superblock :
    Consistent zeroDrive 0 ∧ ∃ after, zeroDrive.mount 1 = (-1, after) ∧ after.mountedDrive = 0 ∧
      ¬ Unharmed zeroDrive after ∧ (after.sync.2.mount 0).1 = -1 := by
  refine ⟨zeroDrive_consistent, (zeroDrive.mount 1).2, Prod.ext (by decide +kernel) rfl, by decide +kernel, ?_,
    by decide +kernel⟩
  intro unharmed
  have first := unharmed.superblock 0 (by decide) (by decide)
  exact absurd first (by decide +kernel)

end Diskfs

end MexOS.Fs
