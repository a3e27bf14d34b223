import MexOS.Fs.EndOfFile

/-! `diskfs_write` inside a file as a splice of its content, and `diskfs_read`
as a piece of it. -/

namespace MexOS.Fs.Diskfs

open MexOS.Machine

/-- The blocks that a file covers are there, and no two of its pointers lead to
one block. -/
structure OwnBlocks (inode : Inode) : Prop where
  size : inode.size.toNat ≤ 6144
  pointer : ∀ index, 512 * index < inode.size.toNat → inode.block index ≠ 0 ∧ (inode.block index).toNat < maxBlocks
  distinct : ∀ first second, 512 * first < inode.size.toNat → 512 * second < inode.size.toNat →
    inode.block first = inode.block second → first = second

def fileByte (fs : Diskfs) (drive : Byte) (inode : Inode) (place : Nat) : Byte :=
  fs.ata.sectors drive (545 + (inode.block (place / 512)).toNat) (place % 512)

/-- The blocks of a file one after the other, cut to its size. -/
def fileContent (fs : Diskfs) (drive : Byte) (inode : Inode) : List Byte :=
  (List.range inode.size.toNat).map (fs.fileByte drive inode)

/-- The loop of `diskfs_write` has stored the bytes from `moved` up to `last`
and touched no other sector. -/
structure Overwritten (fs : Diskfs) (inode : Inode) (source : Bytes) (first moved last : Nat) (after : Diskfs) : Prop where
  drives : Ata.SameDrives fs.ata after.ata
  same : ∃ ata, after = { fs with ata }
  others : ∀ drive sector, (drive = fs.mountedDrive → ∀ place, moved ≤ place → place < last →
    sector ≠ 545 + (inode.block ((first + place) / 512)).toNat) → after.ata.sectors drive sector = fs.ata.sectors drive sector
  bytes : ∀ place < inode.size.toNat, after.fileByte fs.mountedDrive inode place =
    if first + moved ≤ place ∧ place < first + last then source (place - first) else fs.fileByte fs.mountedDrive inode place

section Loop

variable {fs : Diskfs} {inode : Inode} {source : Bytes} {offset size : Word}

theorem Overwritten.done (fs : Diskfs) (inode : Inode) (source : Bytes) (first moved : Nat) :
    Overwritten fs inode source first moved moved fs where
  drives := ⟨rfl, rfl⟩
  same := ⟨fs.ata, rfl⟩
  others _ _ _ := rfl
  bytes place _ := (if_neg (by omega)).symm

/-- The bytes of a file after one of its blocks is stored. -/
theorem fileByte_blockStored (own : OwnBlocks inode) {index place transfers : Nat} (inside : 512 * index < inode.size.toNat)
    (within : place < inode.size.toNat) (drive : Byte) (content : Bytes) :
    ((fs.blockStored drive (inode.block index) content).retime transfers).fileByte drive inode place =
      if place / 512 = index then content (place % 512) else fs.fileByte drive inode place := by
  have small := (own.pointer index inside).2
  rw [fileByte, fileByte]
  change (fs.blockStored drive (inode.block index) content).ata.sectors drive _ _ = _
  split
  · next here => rw [here, blockStored_self _ _ small]
  · next apart =>
    rw [blockStored_other _ _ small]
    intro same
    have equal : inode.block (place / 512) = inode.block index := BitVec.eq_of_toNat_eq (by omega)
    exact apart (own.distinct _ _ (by omega) inside equal)

/-- One turn in front of what the rest of the loop does. -/
theorem Overwritten.turn {transfers moved length last : Nat} {first : Nat} {after : Diskfs} (own : OwnBlocks inode)
    (inside : first + last ≤ inode.size.toNat) (positive : 0 < length) (fits : moved + length ≤ last)
    (block : (first + moved) % 512 + length ≤ 512)
    (rest : Overwritten ((fs.blockStored fs.mountedDrive (inode.block ((first + moved) / 512))
      (fs.chunkStored fs.mountedDrive (inode.block ((first + moved) / 512)) ((first + moved) % 512) source moved length)).retime
        transfers) inode source first (moved + length) last after) :
    Overwritten fs inode source first moved last after := by
  have here : 512 * ((first + moved) / 512) < inode.size.toNat := by omega
  have small := (own.pointer _ here).2
  obtain ⟨ata, same⟩ := rest.same
  refine ⟨⟨rest.drives.present, rest.drives.outcome⟩, ⟨ata, same⟩, ?_, ?_⟩
  · intro drive sector apart
    rw [rest.others drive sector fun mounted place lower upper => apart mounted place (by omega) upper]
    change (fs.blockStored _ _ _).ata.sectors drive sector = _
    by_cases mounted : drive = fs.mountedDrive
    · rw [mounted, blockStored_other _ _ small]
      exact apart mounted moved (Nat.le_refl _) (by omega)
    · rw [blockStored, Ata.store]
      exact if_neg fun both => mounted both.1
  · intro place within
    have stored := @fileByte_blockStored fs inode own _ place transfers here within fs.mountedDrive
      (fs.chunkStored fs.mountedDrive (inode.block ((first + moved) / 512)) ((first + moved) % 512) source moved length)
    have later := rest.bytes place within
    change after.fileByte fs.mountedDrive inode place = _ at later
    rw [later]
    by_cases behind : first + (moved + length) ≤ place ∧ place < first + last
    · rw [if_pos behind, if_pos (by omega)]
    rw [if_neg behind]
    refine stored.trans ?_
    by_cases now : first + moved ≤ place ∧ place < first + last
    · have block_here : place / 512 = (first + moved) / 512 := by omega
      have lane : moved + (place % 512 - (first + moved) % 512) = place - first := by omega
      rw [if_pos block_here, if_pos now, chunkStored, Bytes.copy_inside (by omega) (by omega), lane]
    · rw [if_neg now]
      split
      · next block_here =>
        -- Bytes of the block outside the chunk come from the sector that was read first.
        have partly : (first + moved) % 512 ≠ 0 ∨ length < 512 := by omega
        rw [chunkStored, if_pos partly, Bytes.copy_outside (by omega), content_eq small (Nat.mod_lt _ (by decide)), fileByte,
          block_here]
      · rfl

theorem writeLoop_inPlace (working : fs.ata.Working fs.mountedDrive) (own : OwnBlocks inode)
    (inside : offset.toNat + size.toNat ≤ inode.size.toNat) {turns moved : Nat} (progress : moved ≤ size.toNat)
    (positive : 1 ≤ turns) (enough : 13 ≤ turns + (offset.toNat + moved) / 512 ∨ size.toNat ≤ moved) :
    ∃ after, writeLoop source offset size turns fs inode moved = some (some (inode, size.toNat), after) ∧
      Overwritten fs inode source offset.toNat moved size.toNat after := by
  have greatest := own.size
  induction turns generalizing fs moved with
  | zero => omega
  | succ turns ih =>
    rw [writeLoop, position_eq (by omega)]
    by_cases all : size.toNat ≤ moved
    · obtain rfl : moved = size.toNat := by omega
      rw [if_pos (Nat.le_refl _)]
      exact ⟨fs, rfl, .done fs inode source _ _⟩
    have pointer := (own.pointer ((offset.toNat + moved) / 512) (by omega)).1
    obtain ⟨moves, within, block, boundary⟩ := @chunk_spec (offset.toNat + moved) (size.toNat - moved) (by omega)
    obtain ⟨transfers, store⟩ := storeChunk_works working (inode.block ((offset.toNat + moved) / 512))
      ((offset.toNat + moved) % 512) source moved (chunk (offset.toNat + moved) (size.toNat - moved))
    rw [if_neg all, if_neg (by rw [directBlocks]; omega), claimBlock, if_neg pointer]
    dsimp only
    rw [store]
    generalize stored : (fs.blockStored fs.mountedDrive (inode.block ((offset.toNat + moved) / 512)) _).retime transfers = next
    have nextWorking : next.ata.Working next.mountedDrive := by
      rw [← stored]
      exact ⟨working.driveExists, working.works⟩
    obtain ⟨after, later, rest⟩ := ih nextWorking
      (by omega : moved + chunk (offset.toNat + moved) (size.toNat - moved) ≤ size.toNat) (by omega) (by omega)
    rw [← stored] at rest
    exact ⟨after, later, .turn own (by omega) moves (by omega) block rest⟩

end Loop

section Ranges

variable {α : Type} {old : Nat → α} {offset count total : Nat}

theorem map_range_splice (new : Nat → α) (inside : offset + count ≤ total) :
    (List.range total).map (fun place => if offset ≤ place ∧ place < offset + count then new (place - offset) else old place) =
      ((List.range total).map old).take offset ++ (List.range count).map new ++
        ((List.range total).map old).drop (offset + count) := by
  apply List.ext_getElem
  · simp
    omega
  · intro place bound also
    simp only [List.length_map, List.length_range] at bound
    simp only [List.getElem_map, List.getElem_range, List.getElem_append, List.length_append, List.length_take, List.length_map,
      List.length_range, List.getElem_take, List.getElem_drop]
    by_cases before : place < offset
    · rw [if_neg (by omega), dif_pos (by omega), dif_pos (by omega)]
    by_cases here : place < offset + count
    · rw [if_pos (by omega), dif_pos (by omega), dif_neg (by omega)]
      congr 1
      omega
    · rw [if_neg (by omega), dif_neg (by omega)]
      congr 1
      omega

theorem map_range_piece {length : Nat} (cut : count = min length (total - offset)) :
    (((List.range total).map old).drop offset).take length = (List.range count).map fun place => old (offset + place) := by
  apply List.ext_getElem
  · simp
    omega
  · intro place bound also
    simp

end Ranges

/-- What a `diskfs_write` of `size` bytes inside a file has done. -/
structure SplicedCall (fs : Diskfs) (ino : Word) (source : Bytes) (offset size : Word) (after : Diskfs) : Prop where
  inodeBitmap : after.inodeBitmap = fs.inodeBitmap
  blockBitmap : after.blockBitmap = fs.blockBitmap
  superblock : after.superblock = fs.superblock
  file : SameFile (fs.record fs.mountedDrive ino) (after.record fs.mountedDrive ino)
  /-- Of the data sectors only those of the file change, of the others only the
  one with the record. -/
  others : ∀ drive sector, (drive = fs.mountedDrive → sector ≠ 33 + ino.toNat / 4 ∧
    ∀ index, 512 * index < (fs.record fs.mountedDrive ino).size.toNat →
      sector ≠ 545 + ((fs.record fs.mountedDrive ino).block index).toNat) →
    after.ata.sectors drive sector = fs.ata.sectors drive sector
  content : after.fileContent fs.mountedDrive (after.record fs.mountedDrive ino) =
    (fs.fileContent fs.mountedDrive (fs.record fs.mountedDrive ino)).take offset.toNat ++
      (List.range size.toNat).map source ++
      (fs.fileContent fs.mountedDrive (fs.record fs.mountedDrive ino)).drop (offset.toNat + size.toNat)

/-- Every write inside the file returns its size and splices. -/
def WritesInPlace (fs : Diskfs) (ino : Word) : Prop :=
  ∀ source offset size now, offset.toNat + size.toNat ≤ (fs.record fs.mountedDrive ino).size.toNat →
    ∃ after, fs.write ino source offset size now = some ((size.toNat : Int), after) ∧ SplicedCall fs ino source offset size after

/-- Every read returns the piece of the content that there is. -/
def ReadsExactly (fs : Diskfs) (ino : Word) : Prop :=
  ∀ buffer offset size, offset.toNat + size.toNat < 2 ^ 32 → ∃ (ret : Nat) (result : Bytes) (after : Diskfs),
    fs.read ino buffer offset size = some ((ret : Int), result, after) ∧
    (List.range ret).map result =
      ((fs.fileContent fs.mountedDrive (fs.record fs.mountedDrive ino)).drop offset.toNat).take size.toNat ∧
    ∀ place, ret ≤ place → result place = buffer place

/-- What `read_inode` leaves of a state when it finds the record. -/
structure Opened (fs : Diskfs) (ino : Word) (mid : Diskfs) : Prop where
  loaded : fs.readInode fs.mountedDrive ino = some (.ok (fs.record fs.mountedDrive ino), mid)
  seen : Seen mid ino (fs.record fs.mountedDrive ino)
  working : mid.ata.Working fs.mountedDrive
  mountedDrive : mid.mountedDrive = fs.mountedDrive
  sectors : mid.ata.sectors = fs.ata.sectors
  inodeBitmap : mid.inodeBitmap = fs.inodeBitmap
  blockBitmap : mid.blockBitmap = fs.blockBitmap
  superblock : mid.superblock = fs.superblock

section Call

variable {fs mid : Diskfs} {ino : Word}

theorem Seen.record {inode : Inode} (seen : Seen fs ino inode) (drive : Byte) : fs.record drive ino = inode := by
  obtain ⟨_, i, hit, same⟩ := seen
  rw [record_of_hit hit, same]

/-- A slot that fits is read from the table, any slot from the cache. -/
theorem opened (working : fs.ata.Working fs.mountedDrive) (valid : ino.toNat < maxInodes)
    (found : ino.toNat % 4 ≠ 3 ∨ ∃ i, fs.cached ino = some i) : ∃ mid, Opened fs ino mid := by
  by_cases slot : ino.toNat % 4 ≠ 3
  · obtain ⟨transfers, loaded⟩ := readInode_works working valid slot
    have cache := inodeLoaded_cacheOnly fs fs.mountedDrive ino
    obtain ⟨seen, drives, mountedDrive, superblock, blockBitmap⟩ := seen_of_readInode loaded
    refine ⟨_, loaded, seen, drives.working working, mountedDrive, ?_, cache.inodeBitmap, blockBitmap, superblock⟩
    change (fs.inodeLoaded fs.mountedDrive ino).ata.sectors = _
    rw [cache.ata]
  · obtain ⟨i, hit⟩ := found.resolve_left slot
    have seen : Seen fs ino (fs.record fs.mountedDrive ino) := ⟨valid, i, hit, (record_of_hit hit).symm⟩
    exact ⟨fs, seen.readInode _, seen, working, rfl, rfl, rfl, rfl, rfl⟩

theorem Opened.fileByte (opened : Opened fs ino mid) (drive : Byte) (inode : Inode) :
    mid.fileByte drive inode = fs.fileByte drive inode := by
  funext place
  rw [Diskfs.fileByte, Diskfs.fileByte, opened.sectors]

/-- The loop of `diskfs_write` comes to its end, whatever `write_inode` does
then. -/
theorem Opened.write (opened : Opened fs ino mid) (working : fs.ata.Working fs.mountedDrive)
    (own : OwnBlocks (fs.record fs.mountedDrive ino)) {source : Bytes} {offset size : Word} (now : Word)
    (inside : offset.toNat + size.toNat ≤ (fs.record fs.mountedDrive ino).size.toNat) :
    ∃ last, Overwritten mid (fs.record fs.mountedDrive ino) source offset.toNat 0 size.toNat last ∧
      Seen last ino (fs.record fs.mountedDrive ino) ∧ last.ata.Working fs.mountedDrive ∧
      fs.write ino source offset size now = (last.writeInode fs.mountedDrive ino (finished (fs.record fs.mountedDrive ino)
        (offset + BitVec.ofNat 32 size.toNat) now)).map fun stored => ((size.toNat : Int), stored.2) := by
  have greatest := own.size
  obtain ⟨last, loop, stored⟩ := @writeLoop_inPlace mid (fs.record fs.mountedDrive ino) source offset size
    (opened.mountedDrive ▸ opened.working) own inside maxTurns 0 (Nat.zero_le _) (by decide) (.inl (Nat.le_add_right _ _))
  obtain ⟨ata, same⟩ := stored.same
  refine ⟨last, stored, ?_, stored.drives.working opened.working, ?_⟩
  · rw [same]
    exact opened.seen
  · have drive : last.mountedDrive = fs.mountedDrive := by
      rw [same]
      exact opened.mountedDrive
    rw [write_loaded (Working.drive_ne working) opened.loaded, cutSize_of_le (by omega), loop, Option.bind_some]
    dsimp only [Option.elim]
    rw [drive]

/-- A record that `diskfs_write` stores at the end, when the file got no longer. -/
theorem finished_sameFile {inode : Inode} {last now : Word} (inside : last.toNat ≤ inode.size.toNat) :
    SameFile inode (finished inode last now) := by
  refine ⟨?_, fun index bound => finished_block bound⟩
  rw [finished_size, if_neg]
  rw [gt_iff_lt, BitVec.lt_def]
  omega

/-- `write_inode` changes one sector of one drive. -/
theorem inodeWritten_elsewhere (valid : ino.toNat < maxInodes) (inode : Inode) {drive other : Byte} {sector : Nat}
    (elsewhere : other = drive → sector ≠ 33 + ino.toNat / 4) :
    (fs.inodeWritten drive ino inode).ata.sectors other sector = fs.ata.sectors other sector := by
  by_cases same : other = drive
  · subst same
    exact inodeWritten_sector_other valid inode (elsewhere rfl)
  · exact if_neg fun both => same both.1

theorem writesInPlace_of_slot (working : fs.ata.Working fs.mountedDrive) (valid : ino.toNat < maxInodes)
    (own : OwnBlocks (fs.record fs.mountedDrive ino)) (slot : ino.toNat % 4 ≠ 3) : fs.WritesInPlace ino := by
  intro source offset size now inside
  have greatest := own.size
  obtain ⟨mid, opened⟩ := opened working valid (.inl slot)
  obtain ⟨last, stored, seen, lastWorking, call⟩ := opened.write working own now inside
  have file : SameFile (fs.record fs.mountedDrive ino)
      (finished (fs.record fs.mountedDrive ino) (offset + BitVec.ofNat 32 size.toNat) now) := by
    apply finished_sameFile
    rw [position_eq (by omega)]
    exact inside
  generalize finished (fs.record fs.mountedDrive ino) (offset + BitVec.ofNat 32 size.toNat) now = new at call file
  have store := writeInode_eq lastWorking valid new
  rw [if_neg slot] at store
  have after := (seen.writeInode store).2
  rw [if_pos rfl] at after
  rw [store] at call
  obtain ⟨ata, same⟩ := stored.same
  refine ⟨last.inodeWritten fs.mountedDrive ino new, call, ?_, ?_, ?_, ?_, ?_, ?_⟩
  · change last.inodeBitmap = _
    rw [same]
    exact opened.inodeBitmap
  · change last.blockBitmap = _
    rw [same]
    exact opened.blockBitmap
  · change last.superblock = _
    rw [same]
    exact opened.superblock
  · rw [after.record]
    exact file
  · intro drive sector apart
    rw [inodeWritten_elsewhere valid new fun mounted => (apart mounted).1, stored.others drive sector ?_, opened.sectors]
    intro mounted place _ upper
    exact (apart (opened.mountedDrive ▸ mounted)).2 _ (by omega)
  · rw [after.record, fileContent, fileContent, file.size, ← map_range_splice source inside]
    apply List.map_congr_left
    intro place member
    have within := List.mem_range.mp member
    have bytes := stored.bytes place within
    rw [opened.mountedDrive, opened.fileByte, Nat.add_zero] at bytes
    rw [← bytes, Diskfs.fileByte, Diskfs.fileByte, file.block _ (by rw [directBlocks]; omega),
      inodeWritten_elsewhere valid new]
    rw [maxInodes] at valid
    omega

theorem readsExactly_of_slot (working : fs.ata.Working fs.mountedDrive) (valid : ino.toNat < maxInodes)
    (own : OwnBlocks (fs.record fs.mountedDrive ino)) (slot : ino.toNat % 4 ≠ 3) : fs.ReadsExactly ino := by
  intro buffer offset size bounded
  have greatest := own.size
  obtain ⟨mid, opened⟩ := opened working valid (.inl slot)
  rw [read_loaded (Working.drive_ne working) opened.loaded]
  by_cases behind : offset ≥ (fs.record fs.mountedDrive ino).size
  · rw [if_pos behind]
    rw [ge_iff_le, BitVec.le_def] at behind
    refine ⟨0, buffer, mid, rfl, ?_, fun _ _ => rfl⟩
    rw [List.drop_eq_nil_of_le (by rw [fileContent]; simpa using behind), List.take_nil]
    rfl
  rw [if_neg behind]
  rw [ge_iff_le, BitVec.le_def] at behind
  have cut : (if offset + size > (fs.record fs.mountedDrive ino).size then (fs.record fs.mountedDrive ino).size - offset
      else size).toNat = min size.toNat ((fs.record fs.mountedDrive ino).size.toNat - offset.toNat) := by
    have sum : (offset + size).toNat = offset.toNat + size.toNat := by
      rw [BitVec.toNat_add]
      omega
    split
    · next beyond =>
      rw [gt_iff_lt, BitVec.lt_def] at beyond
      rw [BitVec.toNat_sub]
      omega
    · next inside =>
      rw [gt_iff_lt, BitVec.lt_def] at inside
      omega
  generalize (if offset + size > (fs.record fs.mountedDrive ino).size then (fs.record fs.mountedDrive ino).size - offset
    else size) = length at cut
  have pointer (moved : Nat) (inside : moved < length.toNat) := own.pointer ((offset.toNat + moved) / 512) (by omega)
  obtain ⟨transfers, loop⟩ := readLoop_works (opened.mountedDrive ▸ opened.working) (fs.record fs.mountedDrive ino) offset
    length maxTurns 0 buffer
  obtain ⟨result, scan, outside, bytes⟩ := @scanLoop_full (fs.record fs.mountedDrive ino) (mid.content mid.mountedDrive)
    offset length (by omega) (fun moved inside => (pointer moved inside).1) maxTurns 0 (Nat.zero_le _) (by decide)
    (.inl (Nat.le_add_right _ _)) buffer
  rw [loop, scan]
  refine ⟨length.toNat, result, mid.retime transfers, rfl, ?_, fun place beyond => outside place (.inr beyond)⟩
  rw [fileContent, map_range_piece cut]
  apply List.map_congr_left
  intro place member
  have within := List.mem_range.mp member
  rw [bytes place (Nat.zero_le _) within, content_eq (pointer place within).2 (Nat.mod_lt _ (by decide)), opened.sectors,
    opened.mountedDrive]
  rfl

/-- `write_inode` leaves its buffer at the last slot of a sector. -/
theorem write_last_slot (working : fs.ata.Working fs.mountedDrive) (valid : ino.toNat < maxInodes)
    (own : OwnBlocks (fs.record fs.mountedDrive ino)) (slot : ino.toNat % 4 = 3) (source : Bytes) (now : Word) :
    fs.write ino source 0 0 now = none := by
  cases hit : fs.cached ino with
  | none =>
    have load : fs.readInode fs.mountedDrive ino = none := by
      rw [readInode, if_neg (by omega), hit]
      dsimp only
      rw [working.readSectors Nat.one_ne_zero]
      simp only [ne_eq, not_true_eq_false, ↓reduceIte]
      exact if_pos (by_contra fun fits => slot_fits.mp fits slot)
    rw [write, if_neg (Working.drive_ne working), load]
    rfl
  | some i =>
    obtain ⟨mid, opened⟩ := opened working valid (.inr ⟨i, hit⟩)
    obtain ⟨last, _, _, lastWorking, call⟩ := @Opened.write fs mid ino opened working own source 0 0 now (Nat.zero_le _)
    rw [call, writeInode_eq lastWorking valid, if_pos slot]
    rfl

/-- A file that owns its blocks is written in place as a splice and read as a
piece, exactly if its record is not in the last slot of a sector. -/
theorem in_place_iff (working : fs.ata.Working fs.mountedDrive) (valid : ino.toNat < maxInodes)
    (own : OwnBlocks (fs.record fs.mountedDrive ino)) :
    fs.WritesInPlace ino ∧ fs.ReadsExactly ino ↔ ino.toNat % 4 ≠ 3 := by
  constructor
  · rintro ⟨writes, _⟩ slot
    obtain ⟨after, call, _⟩ := writes Bytes.zero 0 0 0 (Nat.zero_le _)
    rw [write_last_slot working valid own slot] at call
    cases call
  · intro slot
    exact ⟨writesInPlace_of_slot working valid own slot, readsExactly_of_slot working valid own slot⟩

end Call

/-- A mounted drive of zeros but for a file of one byte in block 1. -/
def lone (ino : Nat) : Diskfs :=
  { uniform 0 with
    ata := ⟨fun _ => true,
      fun _ sector place => if sector = 33 ∧ (place = 128 * ino + 4 ∨ place = 128 * ino + 8) then 1 else 0, fun _ => none, 0⟩
    mountedDrive := 0
    superblock := Superblock.fresh
    inodeBitmap := Bitmap.set (Bitmap.set Bytes.zero 0) ino
    blockBitmap := Bitmap.set Bytes.zero 1 }

theorem lone_working (ino : Nat) : (lone ino).ata.Working (lone ino).mountedDrive :=
  ⟨by simp [lone, Ata.driveExists], fun _ => rfl⟩

theorem OwnBlocks.of_one {inode : Inode} (size : inode.size.toNat = 1) (pointer : inode.block 0 = 1) : OwnBlocks inode where
  size := by omega
  pointer index inside := by
    obtain rfl : index = 0 := by omega
    rw [pointer]
    decide
  distinct first second firstInside secondInside _ := by omega

theorem in_place_lone : (lone 1).WritesInPlace 1 ∧ (lone 1).ReadsExactly 1 :=
  (@in_place_iff (lone 1) 1 (lone_working 1) (by decide) (.of_one (by decide +kernel) (by decide +kernel))).mpr (by decide)

/-- The record of inode 3 does not fit into the sector that `write_inode` has
read. -/
theorem in_place_leaves_sector : ¬ ∀ (fs : Diskfs) (ino : Word), fs.ata.Working fs.mountedDrive → ino.toNat < maxInodes →
    OwnBlocks (fs.record fs.mountedDrive ino) → fs.WritesInPlace ino ∧ fs.ReadsExactly ino := by
  intro holds
  obtain ⟨after, call, _⟩ := (holds (lone 3) 3 (lone_working 3) (by decide)
    (.of_one (by decide +kernel) (by decide +kernel))).1 (fun _ => 65) 0 1 0 (by decide +kernel)
  have left : (lone 3).write 3 (fun _ => 65) 0 1 0 = none := by
    have check : ((lone 3).write 3 (fun _ => 65) 0 1 0).isNone = true := by decide +kernel
    exact Option.isNone_iff_eq_none.mp check
  rw [left] at call
  cases call

end MexOS.Fs.Diskfs
