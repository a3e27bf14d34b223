import MexOS.Fs.Draft

/-! `diskfs_read` as a function of the inode's size, its block pointers and the
data blocks. -/

namespace MexOS.Fs.Diskfs

open MexOS.Machine

/-- The data block behind a pointer, as it comes into a buffer. -/
def content (fs : Diskfs) (drive : Byte) (block : Word) : Bytes :=
  fs.ata.load drive (dataStart + block) 1 Bytes.zero

/-- The loop of `diskfs_read` when the blocks are at hand. -/
def scanLoop (data : Word → Bytes) (inode : Inode) (offset size : Word) : Nat → Nat → Bytes → Option (Nat × Bytes)
  | 0, _, _ => none
  | turns + 1, bytesRead, buffer =>
    let position := (offset + BitVec.ofNat 32 bytesRead).toNat
    let toRead := chunk position (size.toNat - bytesRead)
    if size.toNat ≤ bytesRead then some (bytesRead, buffer)
    else if directBlocks ≤ position / 512 then some (bytesRead, buffer)
    else if inode.block (position / 512) = 0 then some (bytesRead, buffer)
    else scanLoop data inode offset size turns (bytesRead + toRead)
      (buffer.copy bytesRead (data (inode.block (position / 512))) (position % 512) toRead)

/-- What `diskfs_read` answers for an inode. -/
def contents (fs : Diskfs) (drive : Byte) (inode : Inode) (buffer : Bytes) (offset size : Word) :
    Option (Int × Bytes) :=
  if offset ≥ inode.size then some (0, buffer)
  else
    let size := if offset + size > inode.size then inode.size - offset else size
    (scanLoop (fs.content drive) inode offset size maxTurns 0 buffer).map fun result => ((result.1 : Int), result.2)

variable {fs : Diskfs} {drive : Byte} {ino : Word} {inode : Inode}

theorem Working.drive_ne (working : fs.ata.Working fs.mountedDrive) : fs.mountedDrive ≠ 0xFF := by
  intro none_mounted
  have exists_drive := working.driveExists
  rw [none_mounted, Ata.driveExists] at exists_drive
  simp at exists_drive

theorem Mounted.drive_ne (mounted : Mounted fs drive) : fs.mountedDrive ≠ 0xFF :=
  Working.drive_ne (mounted.mounted ▸ mounted.working)

theorem readLoop_works (working : fs.ata.Working fs.mountedDrive) (inode : Inode) (offset size : Word)
    (turns bytesRead : Nat) (buffer : Bytes) :
    ∃ transfers, readLoop inode offset size turns fs bytesRead buffer =
      (scanLoop (fs.content fs.mountedDrive) inode offset size turns bytesRead buffer).map
        fun result => ((result.1 : Int), result.2, fs.retime transfers) := by
  have count : (1 : Nat) ≠ 0 := by decide
  induction turns generalizing fs bytesRead buffer with
  | zero => exact ⟨0, rfl⟩
  | succ turns ih =>
    rw [readLoop, scanLoop]
    simp only [working.readSectors count]
    split
    · exact ⟨fs.ata.transfers, rfl⟩
    split
    · exact ⟨fs.ata.transfers, rfl⟩
    split
    · exact ⟨fs.ata.transfers, rfl⟩
    · rw [if_neg (by simp)]
      have ticked : (fs.retime (fs.ata.transfers + 1)).ata.Working fs.mountedDrive := working.tick
      obtain ⟨transfers, later⟩ := @ih (fs.retime (fs.ata.transfers + 1)) ticked _ _
      exact ⟨transfers, later⟩

theorem readLoop_eq (mounted : Mounted fs drive) (inode : Inode) (offset size : Word) (turns bytesRead : Nat)
    (buffer : Bytes) :
    ∃ transfers, readLoop inode offset size turns fs bytesRead buffer =
      (scanLoop (fs.content drive) inode offset size turns bytesRead buffer).map
        fun result => ((result.1 : Int), result.2, fs.retime transfers) := by
  have same := mounted.mounted
  subst same
  exact readLoop_works mounted.working inode offset size turns bytesRead buffer

theorem read_eq (mounted : Mounted fs drive) (valid : ino.toNat < maxInodes) (slot : ino.toNat % 4 ≠ 3)
    (buffer : Bytes) (offset size : Word) :
    ∃ transfers, fs.read ino buffer offset size =
      (fs.contents drive (fs.record drive ino) buffer offset size).map
        fun result => (result.1, result.2, (fs.inodeLoaded drive ino).retime transfers) := by
  obtain ⟨first, load⟩ := readInode_eq mounted valid slot
  rw [read, if_neg mounted.drive_ne, mounted.mounted, load, contents]
  simp only [Option.bind_eq_bind, Option.bind_some]
  split
  · exact ⟨first, rfl⟩
  · have same : ((fs.inodeLoaded drive ino).retime first).content drive = fs.content drive := by
      funext block
      rw [content, retime, (inodeLoaded_cacheOnly fs drive ino).ata]
      rfl
    obtain ⟨transfers, later⟩ := readLoop_eq ((mounted.inodeLoaded ino).retime first) (fs.record drive ino) offset
      (if offset + size > (fs.record drive ino).size then (fs.record drive ino).size - offset else size)
      maxTurns 0 buffer
    rw [same] at later
    refine ⟨transfers, ?_⟩
    rw [Option.map_map]
    exact later

/-- Only the pointers and the blocks behind them matter. -/
theorem scanLoop_congr {data other : Word → Bytes} {later : Inode} (offset size : Word)
    (blocks : ∀ index < directBlocks, later.block index = inode.block index)
    (same : ∀ index < directBlocks, inode.block index ≠ 0 → other (inode.block index) = data (inode.block index))
    (turns bytesRead : Nat) (buffer : Bytes) :
    scanLoop other later offset size turns bytesRead buffer = scanLoop data inode offset size turns bytesRead buffer := by
  induction turns generalizing bytesRead buffer with
  | zero => rfl
  | succ turns ih =>
    rw [scanLoop, scanLoop]
    by_cases done : size.toNat ≤ bytesRead
    · rw [if_pos done, if_pos done]
    rw [if_neg done, if_neg done]
    by_cases past : directBlocks ≤ (offset + BitVec.ofNat 32 bytesRead).toNat / 512
    · rw [if_pos past, if_pos past]
    rw [if_neg past, if_neg past, blocks _ (by omega)]
    by_cases hole : inode.block ((offset + BitVec.ofNat 32 bytesRead).toNat / 512) = 0
    · rw [if_pos hole, if_pos hole]
    · rw [if_neg hole, if_neg hole, same _ (by omega) hole]
      exact ih _ _

/-- Reading the same file from the same blocks. -/
theorem contents_congr {after : Diskfs} {later : Inode} (file : SameFile inode later)
    (same : ∀ index < directBlocks, inode.block index ≠ 0 →
      after.content drive (inode.block index) = fs.content drive (inode.block index))
    (buffer : Bytes) (offset size : Word) :
    after.contents drive later buffer offset size = fs.contents drive inode buffer offset size := by
  rw [contents, contents, file.size]
  simp only
  rw [scanLoop_congr _ _ file.block same]

/-- A turn moves at least one byte, stays within the block, and ends the block
unless nothing is left. -/
theorem chunk_spec {position left : Nat} (positive : 0 < left) :
    0 < chunk position left ∧ chunk position left ≤ left ∧ position % 512 + chunk position left ≤ 512 ∧
      (chunk position left = left ∨ position % 512 + chunk position left = 512) := by
  unfold chunk
  split <;> omega

theorem position_eq {offset : Word} {moved : Nat} (small : offset.toNat + moved < 2 ^ 32) :
    (offset + BitVec.ofNat 32 moved).toNat = offset.toNat + moved := by
  rw [BitVec.toNat_add, BitVec.toNat_ofNat]
  omega

/-- A range without holes is read as a whole. -/
theorem scanLoop_full {data : Word → Bytes} {offset size : Word} (inside : offset.toNat + size.toNat ≤ 6144)
    (whole : ∀ moved < size.toNat, inode.block ((offset.toNat + moved) / 512) ≠ 0) {turns bytesRead : Nat}
    (progress : bytesRead ≤ size.toNat) (positive : 1 ≤ turns)
    (enough : 13 ≤ turns + (offset.toNat + bytesRead) / 512 ∨ size.toNat ≤ bytesRead) (buffer : Bytes) :
    ∃ result, scanLoop data inode offset size turns bytesRead buffer = some (size.toNat, result) ∧
      (∀ place, place < bytesRead ∨ size.toNat ≤ place → result place = buffer place) ∧
      ∀ place, bytesRead ≤ place → place < size.toNat →
        result place = data (inode.block ((offset.toNat + place) / 512)) ((offset.toNat + place) % 512) := by
  induction turns generalizing bytesRead buffer with
  | zero => omega
  | succ turns ih =>
    by_cases done : size.toNat ≤ bytesRead
    · have all : bytesRead = size.toNat := by omega
      subst all
      refine ⟨buffer, ?_, fun _ _ => rfl, ?_⟩
      · rw [scanLoop, if_pos (Nat.le_refl _)]
      · intro place lower upper
        omega
    · obtain ⟨moves, within, block, boundary⟩ := @chunk_spec (offset.toNat + bytesRead) (size.toNat - bytesRead) (by omega)
      have hole := whole bytesRead (by omega)
      rw [scanLoop, position_eq (by omega), if_neg done, if_neg (by rw [directBlocks]; omega), if_neg hole]
      obtain ⟨result, later, before, behind⟩ := ih (by omega : bytesRead + chunk (offset.toNat + bytesRead)
        (size.toNat - bytesRead) ≤ size.toNat) (by omega) (by omega)
        (buffer.copy bytesRead (data (inode.block ((offset.toNat + bytesRead) / 512)))
          ((offset.toNat + bytesRead) % 512) (chunk (offset.toNat + bytesRead) (size.toNat - bytesRead)))
      refine ⟨result, later, ?_, ?_⟩
      · intro place outside
        rw [before place (by omega), Bytes.copy_outside (by omega)]
      · intro place lower upper
        by_cases here : place < bytesRead + chunk (offset.toNat + bytesRead) (size.toNat - bytesRead)
        · have index : (offset.toNat + place) / 512 = (offset.toNat + bytesRead) / 512 := by omega
          have lane : (offset.toNat + place) % 512 = (offset.toNat + bytesRead) % 512 + (place - bytesRead) := by omega
          rw [before place (.inl here), Bytes.copy_inside lower here, index, lane]
        · exact behind place (by omega) upper

end MexOS.Fs.Diskfs
