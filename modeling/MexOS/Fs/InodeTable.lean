import MexOS.Fs.Diskfs

/-! The inode table on the disk: slots of 128 bytes for records of 136. -/

namespace MexOS.Fs.Diskfs

open MexOS.Machine

/-- The bytes of the inode table from the slot of an inode on. -/
def onDisk (fs : Diskfs) (drive : Byte) (ino : Nat) : Inode := fun place =>
  fs.ata.sectors drive (33 + ino / 4) (ino % 4 * 128 + place)

section Slots

variable {fs : Diskfs} {drive : Byte} {ino : Word} {inode : Inode}

theorem sectorOf_inodeSector (valid : ino.toNat < maxInodes) : Ata.sectorOf (inodeSector ino) = 33 + ino.toNat / 4 := by
  rw [maxInodes] at valid
  rw [Ata.sectorOf, inodeSector, inodeTableStart, BitVec.toNat_add, BitVec.toNat_udiv]
  have four : (4 : Word).toNat = 4 := rfl
  have table : (33 : Word).toNat = 33 := rfl
  rw [four, table]
  omega

/-- The last slot of a sector has no room for a record. -/
theorem slot_fits : ¬ 512 < inodeOffset ino + Inode.bytes ↔ ino.toNat % 4 ≠ 3 := by
  rw [inodeOffset, Inode.bytes]
  omega

/-- The state after a `write_inode` that works. -/
def inodeWritten (fs : Diskfs) (drive : Byte) (ino : Word) (inode : Inode) : Diskfs :=
  { fs with
    ata := (fs.ata.tick.store drive (inodeSector ino) 1
      ((fs.ata.load drive (inodeSector ino) 1 Bytes.zero).copy (inodeOffset ino) inode 0 Inode.bytes)).tick
    inodeCache := match fs.cached ino with
      | some i => Function.update fs.inodeCache i inode
      | none => fs.inodeCache }

theorem inodeCache_inodeWritten (fs : Diskfs) (drive : Byte) (ino : Word) (inode : Inode) :
    (fs.inodeWritten drive ino inode).inodeCache =
      (fs.cached ino).elim fs.inodeCache fun i => Function.update fs.inodeCache i inode := by
  rw [inodeWritten]
  cases fs.cached ino with
  | none => rfl
  | some i => rfl

/-- On a drive that works `write_inode` leaves its buffer or comes to its end. -/
theorem writeInode_eq (working : fs.ata.Working drive) (valid : ino.toNat < maxInodes) (inode : Inode) :
    fs.writeInode drive ino inode = if ino.toNat % 4 = 3 then none else some (0, fs.inodeWritten drive ino inode) := by
  have count : (1 : Nat) ≠ 0 := by decide
  rw [writeInode, if_neg (by omega), working.readSectors count]
  simp only [ne_eq, not_true_eq_false, ↓reduceIte]
  by_cases slot : ino.toNat % 4 = 3
  · have outside : 512 < inodeOffset ino + Inode.bytes := by
      rw [inodeOffset, Inode.bytes]
      omega
    rw [if_pos outside, if_pos slot]
  · rw [if_neg (slot_fits.mpr slot), if_neg slot, working.tick.writeSectors count]
    simp only [not_true_eq_false, ↓reduceIte, inodeWritten]
    cases fs.cached ino <;> rfl

/-- The sector of the record, after the write. -/
theorem inodeWritten_sector (valid : ino.toNat < maxInodes) (inode : Inode) :
    (fs.inodeWritten drive ino inode).ata.sectors drive (33 + ino.toNat / 4) =
      (fs.ata.load drive (inodeSector ino) 1 Bytes.zero).copy (inodeOffset ino) inode 0 Inode.bytes := by
  rw [inodeWritten, Ata.tick_sectors, ← sectorOf_inodeSector valid, Ata.store_one_self]

theorem inodeWritten_sector_other (valid : ino.toNat < maxInodes) (inode : Inode) {sector : Nat}
    (other : sector ≠ 33 + ino.toNat / 4) :
    (fs.inodeWritten drive ino inode).ata.sectors drive sector = fs.ata.sectors drive sector := by
  have place := sectorOf_inodeSector valid
  rw [inodeWritten, Ata.tick_sectors, Ata.store_outside _ _ _ _ _ (by omega), Ata.tick_sectors]

theorem onDisk_inodeWritten_self (valid : ino.toNat < maxInodes) (inode : Inode) :
    Bytes.Same inode ((fs.inodeWritten drive ino inode).onDisk drive ino.toNat) 0 Inode.bytes := by
  intro place _ upper
  rw [onDisk, inodeWritten_sector valid, Bytes.copy_inside (by rw [inodeOffset]; omega) (by rw [inodeOffset]; omega)]
  congr 1
  rw [inodeOffset]
  omega

/-- The eight bytes of a record that do not fit into its slot go to the next
one. -/
theorem onDisk_inodeWritten_other (valid : ino.toNat < maxInodes) (slot : ino.toNat % 4 ≠ 3) (inode : Inode)
    {other place : Nat} (differ : other ≠ ino.toNat) (inside : place < 128) :
    (fs.inodeWritten drive ino inode).onDisk drive other place =
      if other = ino.toNat + 1 ∧ place < 8 then inode (128 + place) else fs.onDisk drive other place := by
  rw [onDisk]
  by_cases shared : other / 4 = ino.toNat / 4
  · rw [shared, inodeWritten_sector valid]
    by_cases tail : other = ino.toNat + 1 ∧ place < 8
    · rw [if_pos tail, Bytes.copy_inside (by rw [inodeOffset]; omega) (by rw [inodeOffset, Inode.bytes]; omega)]
      congr 1
      rw [inodeOffset]
      omega
    · rw [if_neg tail, Bytes.copy_outside (by rw [inodeOffset, Inode.bytes]; omega), Ata.load_one _ _ _ _ (by omega),
        sectorOf_inodeSector valid, onDisk, shared]
  · have tail : ¬ (other = ino.toNat + 1 ∧ place < 8) := by
      intro ⟨next, _⟩
      omega
    rw [if_neg tail, inodeWritten_sector_other valid inode (by omega)]
    rfl

end Slots

/-- What a `write_inode` should come to: its record is in the table and all
fields of the others are as they were. -/
structure StoredAlone (fs after : Diskfs) (drive : Byte) (ino : Nat) (inode : Inode) : Prop where
  readsBack : Bytes.Same inode (after.onDisk drive ino) 0 Inode.bytes
  others : ∀ other < maxInodes, other ≠ ino → Bytes.Same (fs.onDisk drive other) (after.onDisk drive other) 0 68

/-- On a drive that works `write_inode` stays inside its buffer and stores one
record alone exactly when the inode is not in the last slot of its sector and
the padding ends with the `type` and `size` that the next slot already has. -/
theorem write_inode_stores_alone_iff {fs : Diskfs} {drive : Byte} (working : fs.ata.Working drive) {ino : Word}
    (valid : ino.toNat < maxInodes) (inode : Inode) :
    (∃ after, fs.writeInode drive ino inode = some (0, after) ∧ StoredAlone fs after drive ino.toNat inode) ↔
      ino.toNat % 4 ≠ 3 ∧ ∀ place < 8, fs.onDisk drive (ino.toNat + 1) place = inode (128 + place) := by
  have bound : ino.toNat < 512 := valid
  rw [writeInode_eq working valid]
  by_cases slot : ino.toNat % 4 = 3
  · rw [if_pos slot]
    constructor
    · intro ⟨after, call, _⟩
      cases call
    · intro ⟨fits, _⟩
      exact absurd slot fits
  rw [if_neg slot]
  constructor
  · intro ⟨after, call, alone⟩
    obtain ⟨_, same⟩ := Prod.mk.inj (Option.some.inj call)
    subst same
    refine ⟨slot, ?_⟩
    intro place small
    have next := alone.others (ino.toNat + 1) (by rw [maxInodes]; omega) (by omega) place (Nat.zero_le _) (by omega)
    rw [← next, onDisk_inodeWritten_other valid slot inode (by omega) (by omega), if_pos ⟨rfl, small⟩]
  · intro ⟨_, tail⟩
    refine ⟨_, rfl, onDisk_inodeWritten_self valid inode, ?_⟩
    intro other _ differ place _ upper
    rw [onDisk_inodeWritten_other valid slot inode differ (by omega)]
    split
    · next next =>
      rw [next.1]
      exact (tail place next.2).symm
    · rfl

/-- Working drives on which every byte is `fill`; nothing is mounted. -/
def uniform (fill : Byte) : Diskfs where
  ata := ⟨fun _ => true, fun _ _ _ => fill, fun _ => none, 0⟩
  mountedDrive := 0xFF
  superblock := Bytes.zero
  inodeBitmap := Bytes.zero
  blockBitmap := Bytes.zero
  inodeCache := fun _ => Bytes.zero
  inodeCacheNum := fun _ => 0
  inodeCacheValid := fun _ => false
  cacheIdx := 0

theorem uniform_working (fill drive : Byte) (small : drive.toNat < 4) : (uniform fill).ata.Working drive := by
  refine ⟨?_, fun _ => rfl⟩
  simp [Ata.driveExists, uniform, small]

theorem write_inode_stores_alone_root :
    ∃ after, (uniform 0).writeInode 0 0 Bytes.zero = some (0, after) ∧ StoredAlone (uniform 0) after 0 0 Bytes.zero :=
  (@write_inode_stores_alone_iff _ 0 (uniform_working 0 0 (by decide)) 0 (by decide) Bytes.zero).mpr
    ⟨by decide, fun _ _ => rfl⟩

/-- A record of zeros for inode 0 clears the type of inode 1, and one for
inode 3 does not fit into the buffer. -/
theorem write_inode_overwrites_neighbour :
    (∃ after, (uniform 1).writeInode 0 0 Bytes.zero = some (0, after) ∧
      (after.onDisk 0 1).type = 0 ∧ ((uniform 1).onDisk 0 1).type = 0x01010101) ∧
    (uniform 1).writeInode 0 3 Bytes.zero = none := by
  refine ⟨⟨_, rfl, ?_, ?_⟩, rfl⟩ <;> decide +kernel

end MexOS.Fs.Diskfs
