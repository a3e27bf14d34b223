import MexOS.Fs.Writing

/-! `diskfs_write` as a whole on a consistent state, and reading back what it
wrote. -/

namespace MexOS.Fs.Diskfs

open MexOS.Machine

/-- Size and data of a file are the same in both states. -/
structure SameData (fs after : Diskfs) (drive : Byte) (ino : Nat) : Prop where
  file : SameFile (fs.onDisk drive ino) (after.onDisk drive ino)
  data : ∀ index < directBlocks, (fs.onDisk drive ino).block index ≠ 0 →
    after.content drive ((fs.onDisk drive ino).block index) = fs.content drive ((fs.onDisk drive ino).block index)

/-- The record that `diskfs_write` stores at its end. -/
def finished (inode : Inode) (last now : Word) : Inode :=
  Inode.setMtime (if last > inode.size then inode.setSize last else inode) now

section Record

variable {inode : Inode} {last now : Word}

theorem finished_block {index : Nat} (bound : index < directBlocks) :
    (finished inode last now).block index = inode.block index := by
  have limit : index < 12 := bound
  have outer (before : Inode) : (before.setMtime now).block index = before.block index :=
    Bytes.word_setWord_of_apart (by omega)
  rw [finished, outer]
  split
  · exact Bytes.word_setWord_of_apart (by omega)
  · rfl

theorem finished_tail : (finished inode last now).word 132 = inode.word 132 := by
  have outer (before : Inode) : (before.setMtime now).word 132 = before.word 132 :=
    Bytes.word_setWord_of_apart (by omega)
  rw [finished, outer]
  split
  · exact Bytes.word_setWord_of_apart (by omega)
  · rfl

theorem finished_size : (finished inode last now).size = if last > inode.size then last else inode.size := by
  have outer (before : Inode) : (before.setMtime now).size = before.size :=
    Bytes.word_setWord_of_apart (by omega)
  rw [finished, outer]
  split
  · exact Bytes.word_setWord _ _ _
  · rfl

end Record

section Sectors

variable {fs after : Diskfs} {drive : Byte} {block : Word}

theorem content_congr (small : block.toNat < maxBlocks)
    (same : after.ata.sectors drive (545 + block.toNat) = fs.ata.sectors drive (545 + block.toNat)) :
    after.content drive block = fs.content drive block := by
  funext place
  simp only [content, Ata.load, sectorOf_data small]
  split
  · have first : place / 512 = 0 := by omega
    rw [first, Nat.add_zero, same]
  · rfl

theorem content_eq (small : block.toNat < maxBlocks) {place : Nat} (inside : place < 512) :
    fs.content drive block place = fs.ata.sectors drive (545 + block.toNat) place := by
  rw [content, Ata.load_one _ _ _ _ inside, sectorOf_data small]

end Sectors

/-- What a `diskfs_write` that returns `count` has done. -/
structure Written (fs : Diskfs) (drive : Byte) (ino : Nat) (source : Bytes) (offset : Word) (after : Diskfs)
    (count : Nat) : Prop where
  consistent : Consistent after drive
  inodeBitmap : after.inodeBitmap = fs.inodeBitmap
  others : ∀ other, other ≠ ino → fs.allocated other → SameData fs after drive other
  inside : 0 < count → offset.toNat + count ≤ 6144
  size : (after.onDisk drive ino).size = if offset + BitVec.ofNat 32 count > (fs.onDisk drive ino).size
    then offset + BitVec.ofNat 32 count else (fs.onDisk drive ino).size
  granted : ∀ place < count,
    fs.blockBitmap.test 0 = true ∨ (fs.onDisk drive ino).block ((offset.toNat + place) / 512) ≠ 0 →
    (after.onDisk drive ino).block ((offset.toNat + place) / 512) ≠ 0
  stored : ∀ place < count, (after.onDisk drive ino).block ((offset.toNat + place) / 512) ≠ 0 →
    after.content drive ((after.onDisk drive ino).block ((offset.toNat + place) / 512)) ((offset.toNat + place) % 512) =
      source place

section Call

variable {fs : Diskfs} {drive : Byte} {ino : Word}

/-- The last step of `diskfs_write`, after its loop. -/
theorem Progress.commit {mid : Diskfs} {inode final : Inode} {source : Bytes} {offset now : Word} {count : Nat}
    (consistent : Consistent fs drive) (allocated : fs.allocated ino.toNat)
    (file : SameFile (fs.onDisk drive ino.toNat) inode)
    (tail : fs.allocated (ino.toNat + 1) → inode.word 132 = (fs.onDisk drive (ino.toNat + 1)).size)
    (progress : Progress fs drive ino.toNat inode source offset.toNat 0 mid final count) :
    Written fs drive ino.toNat source offset
      (mid.inodeWritten drive ino (finished final (offset + BitVec.ofNat 32 count) now)) count := by
  have valid : ino.toNat < 512 := allocated.1
  have slot := consistent.slots _ allocated
  have midAllocated (other : Nat) : mid.allocated other ↔ fs.allocated other := by
    rw [Diskfs.allocated, Diskfs.allocated, progress.inodeBitmap]
  have table (other : Nat) (bound : other < maxInodes) : mid.onDisk drive other = fs.onDisk drive other := by
    have limit : other < 512 := bound
    funext place
    rw [onDisk, onDisk, progress.table _ (by omega)]
  have index_bound (place : Nat) (below : place < count) : (offset.toNat + place) / 512 < directBlocks := by
    have reach := progress.inside (by omega)
    rw [directBlocks]
    omega
  generalize stored : finished final (offset + BitVec.ofNat 32 count) now = record
  have record_block (index : Nat) (bound : index < directBlocks) : record.block index = final.block index := by
    rw [← stored, finished_block bound]
  have record_tail (next : fs.allocated (ino.toNat + 1)) : record.word 132 = (fs.onDisk drive (ino.toNat + 1)).size := by
    have same : Bytes.Same inode final 56 Inode.bytes := fun place lower _ => progress.fields place (.inr lower)
    rw [← stored, finished_tail, same.word (by decide) (by decide), tail next]
  have own : SameFile record ((mid.inodeWritten drive ino record).onDisk drive ino.toNat) :=
    SameFile.of_bytes ((onDisk_inodeWritten_self allocated.1 record).narrow (by decide) (by decide))
  have data_sector (block : Nat) : (mid.inodeWritten drive ino record).ata.sectors drive (545 + block) =
      mid.ata.sectors drive (545 + block) := inodeWritten_sector_other allocated.1 _ (by omega)
  refine ⟨?_, progress.inodeBitmap, ?_, progress.inside, ?_, ?_, ?_⟩
  · apply (progress.draft.change record_block).commit allocated.1 slot
    intro next
    rw [table _ ((midAllocated _).mp next).1]
    exact record_tail ((midAllocated _).mp next)
  · intro other differ otherAllocated
    refine ⟨?_, ?_⟩
    · rw [← table other otherAllocated.1]
      apply inodeWritten_sameFile allocated.1 slot differ
      intro next
      subst next
      rw [table _ otherAllocated.1]
      exact record_tail otherAllocated
    · intro index bound nonzero
      have held : fs.holds (fs.onDisk drive) (other, index) = some ((fs.onDisk drive other).block index).toNat :=
        holds_eq_some.mpr ⟨otherAllocated, bound, nonzero, rfl⟩
      have present := consistent.exclusive.taken held
      apply content_congr present.1
      rw [data_sector, progress.frame _ present]
      intro place _ below same
      have equal := BitVec.eq_of_toNat_eq same
      rw [file.block _ (index_bound place below)] at equal
      have also : fs.holds (fs.onDisk drive) (ino.toNat, (offset.toNat + place) / 512) =
          some ((fs.onDisk drive other).block index).toNat :=
        holds_eq_some.mpr ⟨allocated, index_bound place below, equal ▸ nonzero, by rw [equal]⟩
      exact differ (Prod.mk.inj (consistent.exclusive.once held also)).1
  · have header : Bytes.Same inode final 0 8 := fun place _ upper => progress.fields place (.inl upper)
    have final_size : final.size = (fs.onDisk drive ino.toNat).size :=
      (header.word (by decide) (by decide)).trans file.size
    rw [own.size, ← stored, finished_size, final_size]
  · intro place below grant
    rw [own.block _ (index_bound place below), record_block _ (index_bound place below)]
    apply progress.granted place (Nat.zero_le _) below
    rw [file.block _ (index_bound place below)]
    exact grant
  · intro place below nonzero
    rw [own.block _ (index_bound place below), record_block _ (index_bound place below)] at nonzero ⊢
    have present := progress.draft.block_taken ((midAllocated _).mpr allocated) (index_bound place below) nonzero
    rw [content_eq present.1 (Nat.mod_lt _ (by decide)), data_sector]
    exact progress.stored place (Nat.zero_le _) below nonzero

/-- Loading the inode first makes no difference. -/
theorem Written.of_loaded {source : Bytes} {offset : Word} {after : Diskfs} {count transfers number : Nat}
    (written : Written ((fs.inodeLoaded drive ino).retime transfers) drive number source offset after count) :
    Written fs drive number source offset after count := by
  have loaded := inodeLoaded_cacheOnly fs drive ino
  have table : ((fs.inodeLoaded drive ino).retime transfers).onDisk drive = fs.onDisk drive := loaded.onDisk drive
  have blocks : ((fs.inodeLoaded drive ino).retime transfers).blockBitmap = fs.blockBitmap := loaded.blockBitmap
  have data : ((fs.inodeLoaded drive ino).retime transfers).content drive = fs.content drive := by
    funext block
    rw [content, retime, loaded.ata]
    rfl
  refine ⟨written.consistent, written.inodeBitmap.trans loaded.inodeBitmap, ?_, written.inside, ?_, ?_, written.stored⟩
  · intro other differ allocated
    have same := written.others other differ ((loaded.allocated other).mpr allocated)
    refine ⟨?_, ?_⟩
    · rw [← table]
      exact same.file
    · rw [← table, ← data]
      exact same.data
  · rw [← table]
    exact written.size
  · rw [← table, ← blocks]
    exact written.granted

/-- The size after the cut at the greatest file size. -/
def cutSize (offset size : Word) : Word := if offset + size > maxFileSize then maxFileSize - offset else size

theorem cutSize_of_le {offset size : Word} (inside : offset.toNat + size.toNat ≤ 6144) : cutSize offset size = size := by
  have greatest : maxFileSize.toNat = 6144 := rfl
  rw [cutSize, if_neg]
  rw [gt_iff_lt, BitVec.lt_def, BitVec.toNat_add, greatest]
  omega

/-- `diskfs_write` on an allocated inode: the loop, and the record it stores. -/
theorem write_progress (consistent : Consistent fs drive) (allocated : fs.allocated ino.toNat) (source : Bytes)
    (offset size now : Word) :
    ∃ (first count : Nat) (mid : Diskfs) (final : Inode),
      fs.write ino source offset size now =
        some ((count : Int), mid.inodeWritten drive ino (finished final (offset + BitVec.ofNat 32 count) now)) ∧
      count ≤ (cutSize offset size).toNat ∧
      Progress ((fs.inodeLoaded drive ino).retime first) drive ino.toNat (fs.record drive ino) source offset.toNat 0 mid
        final count := by
  have mounted := consistent.toMounted
  have slot := consistent.slots _ allocated
  obtain ⟨first, load⟩ := readInode_eq mounted allocated.1 slot
  have loaded := inodeLoaded_cacheOnly fs drive ino
  have start := (consistent.inodeLoaded ino).retime first
  have table : ((fs.inodeLoaded drive ino).retime first).onDisk drive = fs.onDisk drive := loaded.onDisk drive
  have file : SameFile (((fs.inodeLoaded drive ino).retime first).onDisk drive ino.toNat) (fs.record drive ino) := by
    rw [table]
    exact consistent.record_sameFile allocated
  obtain ⟨mid, final, count, loop, upper, progress⟩ :=
    @writeLoop_spec _ _ _ _ offset (cutSize offset size) (start.draft file) ((loaded.allocated ino.toNat).mpr allocated)
      source maxTurns 0 (Nat.zero_le _) (by omega) (by decide) (.inl (Nat.le_add_right _ _))
  refine ⟨first, count, mid, final, ?_, upper, progress⟩
  rw [write, if_neg mounted.drive_ne, mounted.mounted, load]
  simp only [Option.bind_eq_bind, Option.bind_some]
  rw [cutSize] at loop
  rw [loop]
  simp only [Option.bind_some]
  have store := writeInode_eq progress.draft.working allocated.1 (finished final (offset + BitVec.ofNat 32 count) now)
  rw [if_neg slot] at store
  rw [progress.draft.mounted]
  rw [finished] at store
  rw [store]
  rfl

/-- `diskfs_write` on an allocated inode whose successor's size is in step. -/
theorem write_spec (consistent : Consistent fs drive) (allocated : fs.allocated ino.toNat)
    (synced : fs.Synced drive ino) (source : Bytes) (offset size now : Word) :
    ∃ (count : Nat) (after : Diskfs), fs.write ino source offset size now = some ((count : Int), after) ∧
      count ≤ (cutSize offset size).toNat ∧ Written fs drive ino.toNat source offset after count := by
  obtain ⟨first, count, mid, final, call, upper, progress⟩ := write_progress consistent allocated source offset size now
  have loaded := inodeLoaded_cacheOnly fs drive ino
  have table : ((fs.inodeLoaded drive ino).retime first).onDisk drive = fs.onDisk drive := loaded.onDisk drive
  have start := (consistent.inodeLoaded ino).retime first
  have file : SameFile (((fs.inodeLoaded drive ino).retime first).onDisk drive ino.toNat) (fs.record drive ino) := by
    rw [table]
    exact consistent.record_sameFile allocated
  have tail : ((fs.inodeLoaded drive ino).retime first).allocated (ino.toNat + 1) →
      (fs.record drive ino).word 132 = (((fs.inodeLoaded drive ino).retime first).onDisk drive (ino.toNat + 1)).size := by
    intro next
    rw [table]
    exact synced ((loaded.allocated _).mp next)
  have written := @Progress.commit _ _ _ _ _ _ _ _ now _ start ((loaded.allocated ino.toNat).mpr allocated) file tail
    progress
  exact ⟨count, _, call, upper, written.of_loaded⟩

/-- What a caller sees of a `diskfs_read`. -/
def answer (result : Option (Int × Bytes × Diskfs)) : Option (Int × Bytes) :=
  result.map fun result => (result.1, result.2.1)

theorem answer_read (mounted : Mounted fs drive) (valid : ino.toNat < maxInodes) (slot : ino.toNat % 4 ≠ 3)
    (buffer : Bytes) (offset size : Word) :
    answer (fs.read ino buffer offset size) = fs.contents drive (fs.record drive ino) buffer offset size := by
  obtain ⟨transfers, read⟩ := read_eq mounted valid slot buffer offset size
  rw [read, answer, Option.map_map]
  exact Option.map_id_apply

/-- A file with the same data reads the same. -/
theorem SameData.answer {after : Diskfs} (same : SameData fs after drive ino.toNat) (before : Consistent fs drive)
    (later : Consistent after drive) (allocated : fs.allocated ino.toNat) (still : after.allocated ino.toNat)
    (buffer : Bytes) (offset size : Word) :
    answer (after.read ino buffer offset size) = answer (fs.read ino buffer offset size) := by
  have slot := before.slots _ allocated
  rw [answer_read later.toMounted allocated.1 slot, answer_read before.toMounted allocated.1 slot]
  have beforeFile := before.record_sameFile allocated
  have file := (beforeFile.symm.trans same.file).trans (later.record_sameFile still)
  apply contents_congr file
  intro index bound nonzero
  rw [beforeFile.block index bound] at nonzero ⊢
  exact same.data index bound nonzero

/-- `diskfs_read` returns what was just written, if no pointer of the range
reads as unallocated. -/
theorem Written.read_back {source : Bytes} {offset : Word} {after : Diskfs} {count : Nat}
    (written : Written fs drive ino.toNat source offset after count) (allocated : fs.allocated ino.toNat)
    (inside : offset.toNat + count ≤ 6144)
    (whole : ∀ place < count, (after.onDisk drive ino.toNat).block ((offset.toNat + place) / 512) ≠ 0)
    (buffer : Bytes) :
    ∃ result later, after.read ino buffer offset (BitVec.ofNat 32 count) = some ((count : Int), result, later) ∧
      ∀ place < count, result place = source place := by
  have still : after.allocated ino.toNat := by
    rw [Diskfs.allocated, written.inodeBitmap]
    exact allocated
  have file := written.consistent.record_sameFile still
  have amount : (BitVec.ofNat 32 count).toNat = count := by
    rw [BitVec.toNat_ofNat]
    omega
  have last : (offset + BitVec.ofNat 32 count).toNat = offset.toNat + count := position_eq (by omega)
  have reach : offset.toNat + count ≤ (after.record drive ino).size.toNat := by
    rw [file.size, written.size]
    split
    · omega
    · next small =>
      rw [gt_iff_lt, BitVec.lt_def, last] at small
      omega
  have uncut : ¬ offset + BitVec.ofNat 32 count > (after.record drive ino).size := by
    rw [gt_iff_lt, BitVec.lt_def, last]
    omega
  have index_bound (place : Nat) (below : place < count) : (offset.toNat + place) / 512 < directBlocks := by
    rw [directBlocks]
    omega
  obtain ⟨transfers, read⟩ := read_eq written.consistent.toMounted allocated.1
    (written.consistent.slots _ still) buffer offset (BitVec.ofNat 32 count)
  rw [contents] at read
  by_cases empty : offset ≥ (after.record drive ino).size
  · have none_left : count = 0 := by
      rw [ge_iff_le, BitVec.le_def] at empty
      omega
    subst none_left
    rw [if_pos empty] at read
    refine ⟨buffer, _, read, ?_⟩
    intro place below
    omega
  · obtain ⟨result, scan, _, bytes⟩ := @scanLoop_full (after.record drive ino) (after.content drive) offset
      (BitVec.ofNat 32 count) (by omega) (by
        rw [amount]
        intro place below
        rw [file.block _ (index_bound place below)]
        exact whole place below) maxTurns 0 (Nat.zero_le _) (by decide) (.inl (Nat.le_add_right _ _)) buffer
    rw [if_neg empty, if_neg uncut] at read
    simp only at read
    rw [scan, amount] at read
    refine ⟨result, _, read, ?_⟩
    intro place below
    rw [bytes place (Nat.zero_le _) (by omega), file.block _ (index_bound place below)]
    exact written.stored place below (whole place below)

end Call

end MexOS.Fs.Diskfs
