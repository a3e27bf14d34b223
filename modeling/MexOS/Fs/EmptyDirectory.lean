import MexOS.Fs.CreatedEntry
import MexOS.Fs.InPlace

/-! When `diskfs_delete` refuses to remove a directory, and what it removes
otherwise. -/

namespace MexOS.Fs.Diskfs

open MexOS.Machine

/-- An entry of a directory on the disk; one without a block has the number 0. -/
def direntAt (fs : Diskfs) (drive : Byte) (dirIno i : Nat) : Dirent :=
  fs.entryAt drive (fs.onDisk drive dirIno) (fun _ => Bytes.zero) i

/-- The directory has an entry in use. -/
def HasLive (fs : Diskfs) (drive : Byte) (dirIno : Nat) : Prop :=
  ∃ i < (fs.onDisk drive dirIno).size.toNat / Dirent.bytes, Dirent.inode (fs.direntAt drive dirIno i) ≠ 0

/-- The entry `i` of `parentIno` is the first one with this name, and it has the
number of a directory. -/
structure NamesDirectory (fs : Diskfs) (drive : Byte) (parentIno : Word) (name : CString) (i : Nat) (ino : Word) : Prop where
  valid : parentIno.toNat < maxInodes
  directory : (fs.onDisk drive parentIno.toNat).type = typeDir
  inside : i < (fs.onDisk drive parentIno.toNat).size.toNat / Dirent.bytes
  blocks : ∀ j ≤ i, j / 16 < directBlocks ∧ (fs.onDisk drive parentIno.toNat).block (j / 16) ≠ 0
  first : ∀ j < i, Dirent.answer (fs.direntAt drive parentIno.toNat j) name = some none
  here : Dirent.answer (fs.direntAt drive parentIno.toNat i) name = some (some ino.toInt)
  target : ino.toNat < maxInodes
  type : (fs.onDisk drive ino.toNat).type = typeDir

/-- The entry and the inode are gone; the other entries are as they were. -/
structure DirectoryRemoved (fs after : Diskfs) (drive : Byte) (parentIno : Word) (i : Nat) (ino : Word) : Prop where
  freed : ¬ after.allocated ino.toNat
  cleared : Dirent.inode (after.direntAt drive parentIno.toNat i) = 0
  size : (after.onDisk drive parentIno.toNat).size = (fs.onDisk drive parentIno.toNat).size
  others : ∀ j, j ≠ i → Bytes.Same (fs.direntAt drive parentIno.toNat j) (after.direntAt drive parentIno.toNat j) 0 Dirent.bytes

section Entries

variable {fs after : Diskfs} {drive : Byte} {parentIno : Word} {name : CString} {inode : Inode}

/-- The record that is read has the entries of the one on the disk. -/
theorem Consistent.entryAt_record (consistent : Consistent fs drive) (allocated : fs.allocated parentIno.toNat) :
    fs.entryAt drive (fs.record drive parentIno) = fs.entryAt drive (fs.onDisk drive parentIno.toNat) :=
  entryAt_congr (consistent.record_sameFile allocated) fun _ _ _ => rfl

/-- Where there is a block, what was in the buffer before does not matter. -/
theorem entryAt_junk {i : Nat} (inside : i / 16 < directBlocks) (pointer : inode.block (i / 16) ≠ 0)
    (small : (inode.block (i / 16)).toNat < maxBlocks) (junk other : Nat → Dirent) :
    Bytes.Same (fs.entryAt drive inode junk i) (fs.entryAt drive inode other i) 0 Dirent.bytes := by
  intro place _ upper
  rw [entryAt_place inside pointer small upper, entryAt_place inside pointer small upper]

/-- The search ends at the first entry that answers. -/
theorem seek_first {answers : Nat → Option (Option Int)} {turns i : Nat} {value : Int} (inside : i < turns)
    (silent : ∀ j < i, answers j = some none) (here : answers i = some (some value)) : seek answers turns 0 = some value := by
  obtain ⟨rest, rfl⟩ := Nat.exists_eq_add_of_lt inside
  rw [Nat.add_assoc, seek_skip (fun j _ upper => silent j (by omega)), Nat.zero_add, seek, here]
  rfl

theorem NamesDirectory.lookup {i : Nat} {ino : Word} (names : NamesDirectory fs drive parentIno name i ino)
    (consistent : Consistent fs drive) (durable : Durable fs drive fun _ => False) (allocated : fs.allocated parentIno.toNat)
    (junk : Nat → Dirent) :
    ∃ transfers, fs.lookup junk parentIno name = some (ino.toInt, (fs.inodeLoaded drive parentIno).retime transfers) := by
  have mounted := consistent.toMounted
  have slot := consistent.slots _ allocated
  have stored := durable.record names.valid slot fun impossible => impossible
  have directory : (fs.record drive parentIno).type = typeDir := (stored.word (by decide) (by decide)).trans names.directory
  have size := (consistent.record_sameFile allocated).size
  have answers (j : Nat) (upper : j ≤ i) : Dirent.answer (fs.entryAt drive (fs.record drive parentIno) junk j) name =
      Dirent.answer (fs.direntAt drive parentIno.toNat j) name := by
    obtain ⟨bound, pointer⟩ := names.blocks j upper
    rw [consistent.entryAt_record allocated]
    exact Dirent.answer_congr (entryAt_junk bound pointer (consistent.pointer_small allocated bound pointer) _ _) name
  have search := lookup_seek mounted names.valid slot junk name
  rw [if_neg (not_not.mpr directory), size, seek_first names.inside
    (fun j before => (answers j (by omega)).trans (names.first j before)) ((answers i (Nat.le_refl _)).trans names.here)] at search
  obtain ⟨⟨_, after⟩, call, rfl⟩ := Option.map_eq_some_iff.mp search
  obtain ⟨⟨transfers, rfl⟩, _⟩ := lookup_state mounted names.valid slot call
  exact ⟨transfers, call⟩

end Entries

/-- The entry `k` of a directory is overwritten, and nothing else of it. -/
structure EntryStored (fs after : Diskfs) (drive : Byte) (dirIno k : Nat) (entry : Dirent) : Prop where
  mounted : Mounted after drive
  inodeBitmap : after.inodeBitmap = fs.inodeBitmap
  file : SameFile (fs.onDisk drive dirIno) (after.onDisk drive dirIno)
  here : ∀ place < 32, after.direntAt drive dirIno k place = entry place
  others : ∀ j, j ≠ k → Bytes.Same (fs.direntAt drive dirIno j) (after.direntAt drive dirIno j) 0 Dirent.bytes

section Store

variable {fs : Diskfs} {drive : Byte} {parentIno : Word} {k : Nat}

theorem write_entry (consistent : Consistent fs drive) (allocated : fs.allocated parentIno.toNat)
    (inside : (k + 1) * 32 ≤ (fs.onDisk drive parentIno.toNat).size.toNat) (bound : k / 16 < directBlocks)
    (pointer : (fs.onDisk drive parentIno.toNat).block (k / 16) ≠ 0) (entry : Dirent) (now : Word) :
    ∃ after, fs.write parentIno entry (BitVec.ofNat 32 (k * Dirent.bytes)) (BitVec.ofNat 32 Dirent.bytes) now = some (32, after) ∧
      EntryStored fs after drive parentIno.toNat k entry := by
  have slot := consistent.slots _ allocated
  have valid : parentIno.toNat < 512 := allocated.1
  have limit : k / 16 < 12 := bound
  have file := consistent.record_sameFile allocated
  have start : (BitVec.ofNat 32 (k * Dirent.bytes)).toNat = k * 32 := by
    rw [BitVec.toNat_ofNat, Dirent.bytes]
    omega
  have length : (BitVec.ofNat 32 Dirent.bytes).toNat = 32 := rfl
  have index : k * 32 / 512 = k / 16 := by omega
  have lane : k * 32 % 512 = k % 16 * 32 := by omega
  have record : (fs.record drive parentIno).block (k / 16) ≠ 0 := by
    rw [file.block _ bound]
    exact pointer
  obtain ⟨first, transfers, mid, new, claimed, call⟩ := @write_one fs drive parentIno (BitVec.ofNat 32 (k * Dirent.bytes))
    (BitVec.ofNat 32 Dirent.bytes) consistent.toMounted allocated.1 slot (by decide) (by rw [start, length]; omega)
    (by rw [start, length]; omega) (by rw [start, index]; exact .inl record) entry now
  rw [start, index, length, lane] at call
  rw [start, index] at claimed
  cases claimed with
  | fresh _ hole _ _ _ => exact absurd hole record
  | kept _ =>
    generalize stored : Diskfs.chunkStored _ drive _ _ entry 0 32 = chunk at call
    have loaded := inodeLoaded_cacheOnly fs drive parentIno
    have small := consistent.block_small allocated bound record
    have last_inside : (BitVec.ofNat 32 (k * Dirent.bytes) + BitVec.ofNat 32 Dirent.bytes).toNat ≤
        (fs.record drive parentIno).size.toNat := by
      rw [position_eq (by rw [start, Dirent.bytes]; omega), start, file.size, Dirent.bytes]
      omega
    have mounted := ((((consistent.toMounted.inodeLoaded parentIno).retime first).blockStored
      ((fs.record drive parentIno).block (k / 16)) chunk).retime transfers).inodeWritten parentIno
        (finished (fs.record drive parentIno) (BitVec.ofNat 32 (k * Dirent.bytes) + BitVec.ofNat 32 Dirent.bytes) now)
    have data (block : Nat) (sector : Bytes) (found : ((fs.inodeLoaded drive parentIno).blockStored drive
        ((fs.record drive parentIno).block (k / 16)) chunk).ata.sectors drive (545 + block) = sector) :
        (((((fs.inodeLoaded drive parentIno).retime first).blockStored drive ((fs.record drive parentIno).block (k / 16))
          chunk).retime transfers).inodeWritten drive parentIno (finished (fs.record drive parentIno)
            (BitVec.ofNat 32 (k * Dirent.bytes) + BitVec.ofNat 32 Dirent.bytes) now)).ata.sectors drive (545 + block) = sector :=
      (inodeWritten_sector_other allocated.1 _ (by omega)).trans found
    have own := @onDisk_inodeWritten_self ((((fs.inodeLoaded drive parentIno).retime first).blockStored drive
      ((fs.record drive parentIno).block (k / 16)) chunk).retime transfers) drive parentIno allocated.1
        (finished (fs.record drive parentIno) (BitVec.ofNat 32 (k * Dirent.bytes) + BitVec.ofNat 32 Dirent.bytes) now)
    generalize Diskfs.inodeWritten _ drive parentIno _ = after at call mounted data own
    have same : SameFile (fs.onDisk drive parentIno.toNat) (after.onDisk drive parentIno.toNat) :=
      file.trans ((finished_sameFile last_inside).trans (.of_bytes (own.narrow (by decide) (by decide))))
    have block (index : Nat) (within : index < directBlocks) :
        (after.onDisk drive parentIno.toNat).block index = (fs.record drive parentIno).block index :=
      (same.block index within).trans (file.block index within).symm
    refine ⟨after, call, mounted, write_inodeBitmap call, same, ?_, ?_⟩
    · intro place upper
      have equal := block _ bound
      rw [direntAt, entryAt_place bound (equal ▸ record) (equal ▸ small) upper, equal, data _ _ (blockStored_self _ _ small _),
        ← stored, chunkStored, Bytes.copy_inside (by omega) (by omega)]
      congr 1
      omega
    · intro j apart place _ upper
      have short : place < 32 := upper
      rw [direntAt, direntAt]
      by_cases past : directBlocks ≤ j / 16
      · rw [entryAt, entryAt, if_pos (.inl past), if_pos (.inl past)]
      have within : j / 16 < directBlocks := by omega
      by_cases hole : (fs.onDisk drive parentIno.toNat).block (j / 16) = 0
      · have still : (after.onDisk drive parentIno.toNat).block (j / 16) = 0 := (same.block _ within).trans hole
        rw [entryAt, entryAt, if_pos (.inr still), if_pos (.inr hole)]
      have equal := same.block _ within
      have fits := consistent.pointer_small allocated within hole
      rw [entryAt_place within hole fits upper, entryAt_place within (equal ▸ hole) (equal ▸ fits) upper, equal]
      by_cases shared : j / 16 = k / 16
      · have one : (fs.onDisk drive parentIno.toNat).block (j / 16) = (fs.record drive parentIno).block (k / 16) := by
          rw [shared, file.block _ bound]
        rw [one, data _ _ (blockStored_self _ _ small _), ← stored, chunkStored, if_pos (.inr (by decide)),
          Bytes.copy_outside (by omega), content_eq small (by omega), retime, loaded.ata]
      · have other : (fs.onDisk drive parentIno.toNat).block (j / 16) ≠ (fs.record drive parentIno).block (k / 16) := by
          rw [file.block _ bound]
          intro equal
          have left := holds_eq_some.mpr ⟨allocated, within, hole, rfl⟩
          have right := holds_eq_some.mpr ⟨allocated, bound, pointer, congrArg BitVec.toNat equal.symm⟩
          exact shared (Prod.mk.inj (consistent.exclusive.once left right)).2
        have sectors := blockStored_other (fs.inodeLoaded drive parentIno) drive small chunk
          (fun same => other (BitVec.eq_of_toNat_eq (Nat.add_left_cancel same)))
        rw [data _ _ sectors, loaded.ata]

/-- The loop of `diskfs_delete` overwrites the first entry with this number. -/
theorem clearLoop_first (consistent : Consistent fs drive) (allocated : fs.allocated parentIno.toNat)
    (loaded : fs.inodeLoaded drive parentIno = fs) {scrap : Nat → Dirent} {ino now : Word} {turns i : Nat} (transfers : Nat)
    (lower : i ≤ k) (upper : k < i + turns) (inside : (i + turns) * 32 ≤ (fs.onDisk drive parentIno.toNat).size.toNat)
    (blocks : ∀ j ≤ k, j / 16 < directBlocks ∧ (fs.onDisk drive parentIno.toNat).block (j / 16) ≠ 0)
    (first : ∀ j < k, Dirent.inode (fs.direntAt drive parentIno.toNat j) ≠ ino)
    (here : Dirent.inode (fs.direntAt drive parentIno.toNat k) = ino) :
    ∃ entry after, clearLoop scrap parentIno ino now turns (fs.retime transfers) i = some after ∧ Dirent.inode entry = 0 ∧
      EntryStored fs after drive parentIno.toNat k entry := by
  have slot := consistent.slots _ allocated
  have file := consistent.record_sameFile allocated
  induction turns generalizing i transfers with
  | zero => omega
  | succ turns ih =>
    obtain ⟨bound, pointer⟩ := blocks i lower
    obtain ⟨later, read⟩ := read_eq (consistent.toMounted.retime transfers) allocated.1 slot (scrap i)
      (BitVec.ofNat 32 (i * Dirent.bytes)) (BitVec.ofNat 32 Dirent.bytes)
    have same : (fs.retime transfers).contents drive ((fs.retime transfers).record drive parentIno) =
        fs.contents drive (fs.record drive parentIno) := rfl
    obtain ⟨ret, entry⟩ := @contents_entry (fs.record drive parentIno) fs drive i (by rw [file.size]; omega) scrap
    rw [retime_inodeLoaded, loaded, same, entry, consistent.entryAt_record allocated] at read
    have entered := @entryAt_junk fs drive _ i bound pointer (consistent.pointer_small allocated bound pointer)
      (fun _ => Bytes.zero) scrap
    have number : Dirent.inode (fs.entryAt drive (fs.onDisk drive parentIno.toNat) scrap i) =
        Dirent.inode (fs.direntAt drive parentIno.toNat i) := entered.word (Nat.le_refl _) (by decide)
    have again : (fs.retime transfers).retime later = fs.retime later := rfl
    rw [clearLoop, read]
    simp only [Option.map_some, Option.bind_eq_bind, Option.bind_some]
    rw [again, number]
    by_cases last : i = k
    · subst last
      obtain ⟨after, write, stored⟩ := @write_entry (fs.retime later) drive parentIno i (consistent.retime later) allocated
        (by change _ ≤ (fs.onDisk drive parentIno.toNat).size.toNat; omega) bound pointer
        (Bytes.setWord (fs.entryAt drive (fs.onDisk drive parentIno.toNat) scrap i) 0 0) now
      refine ⟨_, after, ?_, Bytes.word_setWord _ _ _, stored.mounted, stored.inodeBitmap, stored.file, stored.here, stored.others⟩
      rw [if_pos here, write]
      rfl
    · rw [if_neg (first i (by omega))]
      exact ih later (by omega) (by omega) (by omega)

/-- Entries and records lie behind the bitmaps. -/
theorem direntAt_congr {other : Diskfs} {dirIno : Nat}
    (small : ∀ index < directBlocks, (fs.onDisk drive dirIno).block index ≠ 0 →
      ((fs.onDisk drive dirIno).block index).toNat < maxBlocks)
    (same : ∀ sector, 33 ≤ sector → other.ata.sectors drive sector = fs.ata.sectors drive sector) :
    other.onDisk drive dirIno = fs.onDisk drive dirIno ∧ other.direntAt drive dirIno = fs.direntAt drive dirIno := by
  have table : other.onDisk drive dirIno = fs.onDisk drive dirIno := by
    funext place
    rw [onDisk, onDisk, same _ (by omega)]
  refine ⟨table, ?_⟩
  funext i
  rw [direntAt, direntAt, table]
  have entries := @entryAt_congr fs drive (fs.onDisk drive dirIno) other _ (.refl _) fun index bound nonzero => by
    funext place
    rw [content, content, Ata.load, Ata.load, sectorOf_data (small index bound nonzero)]
    split
    · rw [same _ (by omega)]
    · rfl
  rw [entries]

/-- From the freeing of the blocks on, `diskfs_delete` removes an empty
directory and the first entry with its number. -/
theorem deleteInode_removes (consistent : Consistent fs drive) (parent : fs.allocated parentIno.toNat) {ino : Word}
    {inode : Inode} (allocated : fs.allocated ino.toNat) (file : SameFile (fs.onDisk drive ino.toNat) inode)
    (apart : parentIno.toNat ≠ ino.toNat) (inside : k < (fs.onDisk drive parentIno.toNat).size.toNat / Dirent.bytes)
    (blocks : ∀ j ≤ k, j / 16 < directBlocks ∧ (fs.onDisk drive parentIno.toNat).block (j / 16) ≠ 0)
    (first : ∀ j < k, Dirent.inode (fs.direntAt drive parentIno.toNat j) ≠ ino)
    (here : Dirent.inode (fs.direntAt drive parentIno.toNat k) = ino) (scrap : Nat → Dirent) (now : Word) :
    ∃ after, fs.deleteInode scrap parentIno ino inode now = some (0, after) ∧
      DirectoryRemoved fs after drive parentIno k ino := by
  obtain ⟨mid, removed, released, inodes, same, still, removedConsistent⟩ := consistent.removed allocated file
  have mounted := removedConsistent.toMounted
  have slot := consistent.slots _ parent
  obtain ⟨transfers, load⟩ := readInode_eq mounted parent.1 slot
  have loaded := inodeLoaded_cacheOnly removed drive parentIno
  have small (index : Nat) (bound : index < directBlocks) := @Consistent.pointer_small fs drive parentIno consistent parent index bound
  obtain ⟨table, entries⟩ := @direntAt_congr fs drive (removed.inodeLoaded drive parentIno) parentIno.toNat small
    (fun _ _ => by rw [loaded.ata, same.ata])
  have size : (removed.record drive parentIno).size = (fs.onDisk drive parentIno.toNat).size := by
    rw [(removedConsistent.record_sameFile ((still _).mpr ⟨parent, apart⟩)).size, same.onDisk]
  rw [Dirent.bytes] at inside
  rw [← entries] at first here
  rw [← table] at blocks
  obtain ⟨entry, last, clear, zero, stored⟩ := @clearLoop_first (removed.inodeLoaded drive parentIno) drive parentIno k
    (removedConsistent.inodeLoaded parentIno) ((loaded.allocated _).mpr ((still _).mpr ⟨parent, apart⟩))
    (mounted.inodeLoaded_twice parentIno) scrap ino now ((fs.onDisk drive parentIno.toNat).size.toNat / 32) 0 transfers
    (Nat.zero_le _) (by omega) (by rw [table]; omega) blocks first here
  have file := stored.file
  rw [table] at file
  obtain ⟨syncedTable, synced⟩ := @direntAt_congr last drive last.sync.2 parentIno.toNat
    (fun index bound => by rw [file.block index bound]; exact small index bound)
    (fun _ => Creates.sectors_synced stored.mounted)
  refine ⟨last.sync.2, ?_, ?_, ?_, ?_, ?_⟩
  · rw [deleteInode, released]
    simp only [Option.bind_eq_bind, Option.bind_some]
    rw [inodes]
    simp only [Option.bind_some]
    rw [mounted.mounted, load]
    simp only [Option.bind_some]
    rw [size, Dirent.bytes, clear]
    rfl
  · rw [Diskfs.allocated, sync_inodeBitmap, stored.inodeBitmap, loaded.inodeBitmap]
    exact fun remains => ((still _).mp remains).2 rfl
  · rw [synced]
    have number : Bytes.Same entry (last.direntAt drive parentIno.toNat k) 0 32 := fun place _ upper => stored.here place upper
    exact (number.word (Nat.le_refl _) (by decide)).trans zero
  · rw [syncedTable, file.size]
  · intro j other
    rw [synced, ← entries]
    exact stored.others j other

end Store

/-- `diskfs_delete` answers -2 if the directory has an entry in use; else it
answers 0, and entry and inode are gone. -/
def DeletesAsDue (fs : Diskfs) (drive : Byte) (junk scrap : Nat → Dirent) (parentIno : Word) (name : CString) (now : Word)
    (i : Nat) (ino : Word) : Prop :=
  (fs.HasLive drive ino.toNat → ∃ after, fs.delete junk scrap parentIno name now = some (-2, after)) ∧
  (¬ fs.HasLive drive ino.toNat → ∃ after, fs.delete junk scrap parentIno name now = some (0, after) ∧
    DirectoryRemoved fs after drive parentIno i ino)

section Delete

variable {fs : Diskfs} {drive : Byte} {junk scrap : Nat → Dirent} {parentIno now : Word} {name : CString} {i : Nat} {ino : Word}

theorem Durable.loaded_durable (durable : Durable fs drive fun _ => False) {number : Word} (valid : number.toNat < maxInodes)
    (slot : number.toNat % 4 ≠ 3) (transfers : Nat) :
    Durable ((fs.inodeLoaded drive number).retime transfers) drive fun _ => False :=
  (durable.inodeLoaded valid slot).of_copies ((durable.toMounted.inodeLoaded number).retime transfers) (.retime _ _ _) rfl

/-- What `diskfs_delete` does with a directory depends on its size. -/
theorem NamesDirectory.delete_eq (names : NamesDirectory fs drive parentIno name i ino) (consistent : Consistent fs drive)
    (durable : Durable fs drive fun _ => False) (allocated : fs.allocated parentIno.toNat) (slot : ino.toNat % 4 ≠ 3)
    (junk scrap : Nat → Dirent) (now : Word) :
    ∃ mid inode, Consistent mid drive ∧ mid.ata.sectors = fs.ata.sectors ∧ mid.inodeBitmap = fs.inodeBitmap ∧
      SameFile (fs.onDisk drive ino.toNat) inode ∧ fs.delete junk scrap parentIno name now =
        if (fs.onDisk drive ino.toNat).size > 0 then some (-2, mid) else mid.deleteInode scrap parentIno ino inode now := by
  have parentSlot := consistent.slots _ allocated
  obtain ⟨first, look⟩ := names.lookup consistent durable allocated junk
  have opened := inodeLoaded_cacheOnly fs drive parentIno
  have openedConsistent := (consistent.inodeLoaded parentIno).retime first
  have openedDurable := durable.loaded_durable names.valid parentSlot first
  have table : ((fs.inodeLoaded drive parentIno).retime first).onDisk drive = fs.onDisk drive := opened.onDisk drive
  generalize middle : (fs.inodeLoaded drive parentIno).retime first = mid at look openedConsistent openedDurable table
  have again := inodeLoaded_cacheOnly mid drive ino
  obtain ⟨second, load⟩ := readInode_eq openedConsistent.toMounted names.target slot
  have stored := openedDurable.record names.target slot fun impossible => impossible
  rw [table] at stored
  have directory : (mid.record drive ino).type = typeDir := (stored.word (by decide) (by decide)).trans names.type
  have size : (mid.record drive ino).size = (fs.onDisk drive ino.toNat).size := stored.word (by decide) (by decide)
  refine ⟨(mid.inodeLoaded drive ino).retime second, mid.record drive ino, (openedConsistent.inodeLoaded ino).retime second,
    ?_, ?_, .of_bytes (stored.narrow (by decide) (by decide)), ?_⟩
  · change (mid.inodeLoaded drive ino).ata.sectors = _
    rw [again.ata, ← middle]
    change (fs.inodeLoaded drive parentIno).ata.sectors = _
    rw [opened.ata]
  · change (mid.inodeLoaded drive ino).inodeBitmap = _
    rw [again.inodeBitmap, ← middle]
    exact opened.inodeBitmap
  · have positive : ¬ ino.toInt < 0 := by
      have small := names.target
      rw [maxInodes] at small
      rw [BitVec.toInt_eq_toNat_of_lt (by omega)]
      omega
    rw [delete, if_neg consistent.drive_ne, look]
    simp only [Option.bind_eq_bind, Option.bind_some]
    rw [if_neg positive, BitVec.ofInt_toInt, openedConsistent.mounted, load]
    simp only [Option.bind_some]
    rw [size]
    by_cases long : (fs.onDisk drive ino.toNat).size > 0
    · rw [if_pos ⟨directory, long⟩, if_pos long]
      rfl
    · rw [if_neg (fun both => long both.2), if_neg long]

/-- The number of an entry that names a directory is not 0. -/
theorem NamesDirectory.number (names : NamesDirectory fs drive parentIno name i ino) :
    Dirent.inode (fs.direntAt drive parentIno.toNat i) = ino ∧ ino ≠ 0 := by
  obtain ⟨nonzero, value⟩ := Dirent.answer_some names.here
  have same := BitVec.toInt_inj.mp value
  exact ⟨same.symm, same ▸ nonzero⟩

theorem NamesDirectory.targets (names : NamesDirectory fs drive parentIno name i ino) (consistent : Consistent fs drive)
    (durable : Durable fs drive fun _ => False) (fits : fs.DeleteFits drive junk parentIno name) :
    fs.allocated parentIno.toNat ∧ ino.toNat % 4 ≠ 3 ∧
      ((fs.onDisk drive ino.toNat).size = 0 → fs.allocated ino.toNat) := by
  rcases fits with beyond | ⟨slot, other⟩ | ⟨allocated, fits⟩
  · exact absurd names.valid (Nat.not_lt_of_le beyond)
  · have stored := durable.record names.valid slot fun impossible => impossible
    exact absurd ((stored.word (by decide) (by decide)).trans names.directory) other
  obtain ⟨transfers, look⟩ := names.lookup consistent durable allocated junk
  have small := names.target
  have positive : 0 ≤ ino.toInt := by
    rw [maxInodes] at small
    rw [BitVec.toInt_eq_toNat_of_lt (by omega)]
    omega
  have fit := fits _ _ look positive
  rw [BitVec.ofInt_toInt] at fit
  rcases fit with beyond | ⟨slot, _, long⟩ | ⟨target, _⟩
  · exact absurd small (Nat.not_lt_of_le beyond)
  · refine ⟨allocated, slot, fun empty => ?_⟩
    have opened := durable.loaded_durable names.valid (consistent.slots _ allocated) transfers
    have stored := opened.record small slot fun impossible => impossible
    have size := stored.word (by decide : 0 ≤ 4) (by decide)
    change Inode.size _ = Inode.size (((fs.inodeLoaded drive parentIno).retime transfers).onDisk drive ino.toNat) at size
    have table : ((fs.inodeLoaded drive parentIno).retime transfers).onDisk drive = fs.onDisk drive :=
      (inodeLoaded_cacheOnly fs drive parentIno).onDisk drive
    rw [size, table, empty] at long
    exact absurd long (by decide)
  · exact ⟨allocated, consistent.slots _ target, fun _ => target⟩

/-- A directory of size 0 goes with the first entry that has its number. -/
theorem NamesDirectory.removes (names : NamesDirectory fs drive parentIno name i ino) (consistent : Consistent fs drive)
    (durable : Durable fs drive fun _ => False) (parent : fs.allocated parentIno.toNat) (target : fs.allocated ino.toNat)
    (empty : (fs.onDisk drive ino.toNat).size = 0) {k : Nat} (behind : k ≤ i)
    (first : ∀ j < k, Dirent.inode (fs.direntAt drive parentIno.toNat j) ≠ ino)
    (here : Dirent.inode (fs.direntAt drive parentIno.toNat k) = ino) (junk scrap : Nat → Dirent) (now : Word) :
    ∃ after, fs.delete junk scrap parentIno name now = some (0, after) ∧ DirectoryRemoved fs after drive parentIno k ino := by
  obtain ⟨mid, inode, midConsistent, sectors, bitmap, file, call⟩ := names.delete_eq consistent durable parent
    (consistent.slots _ target) junk scrap now
  have inside := names.inside
  have apart : parentIno.toNat ≠ ino.toNat := by
    intro same
    rw [same, empty] at inside
    exact absurd inside (Nat.not_lt_zero _)
  have small (index : Nat) (bound : index < directBlocks) := @Consistent.pointer_small fs drive parentIno consistent parent index bound
  obtain ⟨table, entries⟩ := @direntAt_congr fs drive mid parentIno.toNat small fun _ _ => by rw [sectors]
  have targetTable : mid.onDisk drive ino.toNat = fs.onDisk drive ino.toNat := by
    funext place
    rw [onDisk, onDisk, sectors]
  have still (number : Nat) : mid.allocated number ↔ fs.allocated number := by rw [Diskfs.allocated, Diskfs.allocated, bitmap]
  obtain ⟨after, deleted, removed⟩ := @deleteInode_removes mid drive parentIno k midConsistent ((still _).mpr parent) ino inode
    ((still _).mpr target) (by rw [targetTable]; exact file) apart (by rw [table]; omega)
    (fun j upper => by rw [table]; exact names.blocks j (by omega)) (by rw [entries]; exact first) (by rw [entries]; exact here)
    scrap now
  refine ⟨after, ?_, removed.freed, removed.cleared, ?_, ?_⟩
  · rw [call, if_neg (by rw [empty]; decide)]
    exact deleted
  · rw [removed.size, table]
  · intro j other
    rw [← entries]
    exact removed.others j other

theorem HasLive.size (live : fs.HasLive drive ino.toNat) : (fs.onDisk drive ino.toNat).size > 0 := by
  obtain ⟨i, inside, _⟩ := live
  rw [Dirent.bytes] at inside
  rw [gt_iff_lt, BitVec.lt_def]
  change 0 < _
  omega

theorem deletesAsDue_iff (consistent : Consistent fs drive) (durable : Durable fs drive fun _ => False)
    (fits : fs.DeleteFits drive junk parentIno name) (names : NamesDirectory fs drive parentIno name i ino) :
    fs.DeletesAsDue drive junk scrap parentIno name now i ino ↔
      fs.HasLive drive ino.toNat ∨ (fs.onDisk drive ino.toNat).size = 0 ∧
        ∀ j < i, Dirent.inode (fs.direntAt drive parentIno.toNat j) ≠ ino := by
  obtain ⟨parent, slot, target⟩ := names.targets consistent durable fits
  obtain ⟨number, nonzero⟩ := names.number
  obtain ⟨mid, inode, _, _, _, _, call⟩ := names.delete_eq consistent durable parent slot junk scrap now
  constructor
  · rintro ⟨_, removes⟩
    by_cases live : fs.HasLive drive ino.toNat
    · exact .inl live
    obtain ⟨after, due, removed⟩ := removes live
    have empty : (fs.onDisk drive ino.toNat).size = 0 := by
      by_contra long
      have some_bytes : (fs.onDisk drive ino.toNat).size > 0 := by
        rw [gt_iff_lt, BitVec.lt_def]
        exact Nat.pos_of_ne_zero fun zero => long (BitVec.eq_of_toNat_eq zero)
      rw [call, if_pos some_bytes] at due
      cases due
    refine .inr ⟨empty, ?_⟩
    -- The first entry with the number is the one that is cleared.
    have found : ∃ k, Dirent.inode (fs.direntAt drive parentIno.toNat k) = ino := ⟨i, number⟩
    obtain ⟨other, again, cleared⟩ := names.removes consistent durable parent (target empty) empty (Nat.find_min' found number)
      (fun j before => Nat.find_min found before) (Nat.find_spec found) junk scrap now
    rw [due] at again
    cases again
    by_cases same : i = Nat.find found
    · intro j before
      exact Nat.find_min found (same ▸ before)
    · have kept : Dirent.inode (after.direntAt drive parentIno.toNat i) = Dirent.inode (fs.direntAt drive parentIno.toNat i) :=
        (cleared.others i same).word (Nat.le_refl _) (by decide)
      rw [removed.cleared, number] at kept
      exact absurd kept.symm nonzero
  · rintro (live | ⟨empty, first⟩)
    · refine ⟨fun _ => ⟨mid, ?_⟩, fun none_live => absurd live none_live⟩
      rw [call, if_pos live.size]
    · refine ⟨fun live => ?_, fun _ => ?_⟩
      · have long := live.size
        rw [empty] at long
        exact absurd long (by decide)
      · exact names.removes consistent durable parent (target empty) empty (Nat.le_refl _) first number junk scrap now

/-- In every state of a run whose calls keep the records in step, a directory
that is named by an entry is removed or refused as it should be, exactly if it
has an entry in use, or its size is 0 and no entry in front of the one named has
its number. -/
theorem directory_delete_iff {before ready formatted : Diskfs} {start : Word} (working : before.ata.Working drive)
    (format : before.format drive start = some (0, formatted)) (mount : formatted.mount drive = (0, ready))
    (run : Reachable (Request.TidyStep drive) ready fs)
    (tidy : Request.Tidy drive (.change (.delete junk scrap parentIno name now)) fs)
    (names : NamesDirectory fs drive parentIno name i ino) :
    fs.DeletesAsDue drive junk scrap parentIno name now i ino ↔
      fs.HasLive drive ino.toNat ∨ (fs.onDisk drive ino.toNat).size = 0 ∧
        ∀ j < i, Dirent.inode (fs.direntAt drive parentIno.toNat j) ≠ ino := by
  have orderly := run_orderly (fresh_orderly working format mount) run
  exact deletesAsDue_iff orderly.consistent orderly.durable (tidy.call _ rfl) names

/-- Deleting a directory keeps the records in step if the one of its parent is. -/
theorem NamesDirectory.tidy (names : NamesDirectory fs drive parentIno name i ino) (orderly : Orderly fs drive)
    (parent : fs.allocated parentIno.toNat) (target : fs.allocated ino.toNat)
    (inStep : ∀ place < 8, ((fs.inodeLoaded drive parentIno).inodeLoaded drive ino).record drive parentIno (128 + place) =
      fs.onDisk drive (parentIno.toNat + 1) place)
    (synced : parentIno.toNat + 1 = ino.toNat ∨ fs.Synced drive parentIno) (junk scrap : Nat → Dirent) (now : Word) :
    Request.Tidy drive (.change (.delete junk scrap parentIno name now)) fs := by
  have leads {limit : Nat} (low : limit ≤ 545) : LeadsBehind (fs.onDisk drive parentIno.toNat) limit := by
    intro index bound nonzero
    rw [sectorOf_data (orderly.consistent.pointer_small parent bound nonzero)]
    omega
  obtain ⟨transfers, look⟩ := names.lookup orderly.consistent orderly.durable parent junk
  refine ⟨?_, ?_⟩
  · intro _ _
    refine ⟨leads (by decide), ?_⟩
    intro found after again _ _ _
    rw [look] at again
    cases again
    rw [BitVec.ofInt_toInt]
    refine ⟨⟨orderly.consistent.slots _ parent, fun place small => ?_⟩, leads (by decide)⟩
    have table : (((fs.inodeLoaded drive parentIno).retime transfers).inodeLoaded drive ino).onDisk drive = fs.onDisk drive :=
      ((inodeLoaded_cacheOnly _ drive ino).onDisk drive).trans ((inodeLoaded_cacheOnly fs drive parentIno).onDisk drive)
    rw [table, ← inStep place small, retime_inodeLoaded]
    rfl
  · rintro _ ⟨rfl⟩
    refine .inr (.inr ⟨parent, ?_⟩)
    intro found after again _
    rw [look] at again
    cases again
    rw [BitVec.ofInt_toInt]
    exact .inr (.inr ⟨target, synced⟩)

end Delete

theorem house_visible : (0 : Byte) ∉ [(100 : Byte)] := by decide

theorem guest_visible : (0 : Byte) ∉ [(97 : Byte)] := by decide

def houseName : CString := ⟨[100], house_visible⟩

def guestName : CString := ⟨[97], guest_visible⟩

/-- A directory in the root directory, behind a file. -/
def housed : Diskfs := (Call.create (fun _ => Bytes.zero) 0 houseName typeDir 0 0).leaves lettered

theorem lettered_orderly : Orderly lettered 0 := step_orderly padded_orderly lettered_step

theorem housed_step : Request.TidyStep 0 lettered housed := by
  obtain ⟨result, run⟩ := @Call.run_leaves (.create (fun _ => Bytes.zero) 0 houseName typeDir 0 0) lettered (by decide)
  have root : lettered.inodeBitmap.test 0 = true := by decide
  have file : lettered.inodeBitmap.test 1 = true := by decide
  have next : lettered.NextInode (2 : Word).toNat := by
    refine ⟨by decide, by decide, ?_⟩
    intro earlier before
    have bound : earlier < 2 := before
    obtain rfl | rfl : earlier = 0 ∨ earlier = 1 := by omega
    · exact root
    · exact file
  refine ⟨.change (.create (fun _ => Bytes.zero) 0 houseName typeDir 0 0), .code result, ?_, ?_⟩
  · exact tidy_create lettered_orderly.consistent.toMounted _ next ⟨by decide, root⟩ (by decide) (by decide)
      (by decide) (by decide) (fun _ => by decide) (by decide)
  · rw [Request.run, run]
    rfl

theorem housed_names : NamesDirectory housed 0 0 houseName 2 2 where
  valid := by decide
  directory := by decide
  inside := by decide
  blocks := by decide
  first := by decide
  here := by decide
  target := by decide
  type := by decide

/-- A new directory is removed. -/
theorem directory_delete_new :
    housed.DeletesAsDue 0 (fun _ => Bytes.zero) (fun _ => Bytes.zero) 0 houseName 0 2 2 := by
  have tidy := @NamesDirectory.tidy housed 0 0 houseName 2 2 housed_names (step_orderly lettered_orderly housed_step)
    (by decide +kernel) (by decide +kernel) (by decide +kernel) (.inr fun _ => by decide +kernel) (fun _ => Bytes.zero)
    (fun _ => Bytes.zero) 0
  exact (directory_delete_iff (uniform_working 0 0 (by decide)) zeroDrive_ready.1 zeroDrive_ready.2
    (((Relation.ReflTransGen.single padded_step).tail lettered_step).tail housed_step) tidy housed_names).mpr
      (.inr (by decide +kernel))

/-- The file in front of the directory is deleted. -/
def vacated : Diskfs := (Call.delete (fun _ => Bytes.zero) (fun _ => Bytes.zero) 0 guestName 0).leaves housed

/-- The directory has one file. -/
def visited : Diskfs := (Call.create (fun _ => Bytes.zero) 2 guestName typeFile 0 0).leaves vacated

/-- The file is deleted again. -/
def emptied : Diskfs := (Call.delete (fun _ => Bytes.zero) (fun _ => Bytes.zero) 2 guestName 0).leaves visited

theorem Call.leaves_step {call : Call} {fs : Diskfs} (returned : (call.run fs).isSome = true) : Step fs (call.leaves fs) := by
  obtain ⟨result, run⟩ := Call.run_leaves returned
  exact ⟨call, result, run⟩

theorem emptied_reachable : Reachable Step zeroDrive emptied := by
  have first : Step zeroDrive padded := Call.leaves_step (by decide)
  have second : Step padded lettered := Call.leaves_step (by decide)
  have third : Step lettered housed := Call.leaves_step (by decide)
  have fourth : Step housed vacated := Call.leaves_step (by decide)
  have fifth : Step vacated visited := Call.leaves_step (by decide)
  have sixth : Step visited emptied := Call.leaves_step (by decide)
  exact (((((Relation.ReflTransGen.single first).tail second).tail third).tail fourth).tail fifth).tail sixth

theorem emptied_names : NamesDirectory emptied 0 0 houseName 2 2 where
  valid := by decide
  directory := by decide
  inside := by decide
  blocks := by decide
  first := by decide
  here := by decide
  target := by decide
  type := by decide

/-- A directory whose only file was deleted is refused as not empty: its size
stays 32. -/
theorem emptied_directory_refused : ¬ ∀ fs, Reachable Step zeroDrive fs → ∀ junk scrap parentIno name now i ino,
    NamesDirectory fs 0 parentIno name i ino → fs.DeletesAsDue 0 junk scrap parentIno name now i ino := by
  intro holds
  obtain ⟨_, removes⟩ := holds emptied emptied_reachable (fun _ => Bytes.zero) (fun _ => Bytes.zero) 0 houseName 0 2 2
    emptied_names
  obtain ⟨after, call, _⟩ := removes (by
    rintro ⟨i, inside, live⟩
    have size : (emptied.onDisk 0 (2 : Word).toNat).size.toNat / Dirent.bytes = 1 := by decide +kernel
    obtain rfl : i = 0 := by omega
    exact live (by decide +kernel))
  have refused : (emptied.delete (fun _ => Bytes.zero) (fun _ => Bytes.zero) 0 houseName 0).any
      (fun result => decide (result.1 = -2)) = true := by decide +kernel
  rw [call] at refused
  simp at refused

end MexOS.Fs.Diskfs
