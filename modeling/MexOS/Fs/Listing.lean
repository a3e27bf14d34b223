import MexOS.Fs.TwinCalls

/-! A directory as the list of entries that `diskfs_lookup` goes through, and a
write that stays inside one block. -/

namespace MexOS.Fs

open MexOS.Machine

namespace Dirent

/-- What the loop of `diskfs_lookup` makes of an entry: it goes on (`none`
inside) or returns. -/
def answer (entry : Dirent) (name : CString) : Option (Option Int) :=
  if inode entry = 0 then some none
  else (nameEquals entry 0 name.bytes).map fun equal => if equal then some (inode entry).toInt else none

variable {entry other : Dirent} {name : CString} {ino : Word}

theorem nameEquals_congr (same : Bytes.Same entry other 0 bytes) (index : Nat) (rest : List Byte) :
    nameEquals other index rest = nameEquals entry index rest := by
  induction rest generalizing index with
  | nil =>
    rw [nameEquals, nameEquals]
    split
    · next inside =>
      rw [maxFilename] at inside
      rw [same (4 + index) (Nat.zero_le _) (by rw [bytes]; omega)]
    · rfl
  | cons byte rest ih =>
    rw [nameEquals, nameEquals, ih]
    split
    · next inside =>
      rw [maxFilename] at inside
      rw [same (4 + index) (Nat.zero_le _) (by rw [bytes]; omega)]
    · rfl

/-- The 32 bytes of an entry decide. -/
theorem answer_congr (same : Bytes.Same entry other 0 bytes) (name : CString) : answer other name = answer entry name := by
  have number : inode other = inode entry := same.word (Nat.le_refl 0) (by decide)
  rw [answer, answer, number, nameEquals_congr same]

theorem answer_some {value : Int} (call : answer entry name = some (some value)) :
    inode entry ≠ 0 ∧ value = (inode entry).toInt := by
  rw [answer] at call
  split at call
  · cases call
  · next nonzero =>
    obtain ⟨equal, _, same⟩ := Option.map_eq_some_iff.mp call
    cases equal with
    | true => exact ⟨nonzero, (Option.some.inj same).symm⟩
    | false => cases same

theorem nameEquals_here {rest : List Byte} {index : Nat} (inside : index + rest.length < maxFilename)
    (here : ∀ place (bound : place < rest.length), entry (4 + (index + place)) = rest[place])
    (ends : entry (4 + (index + rest.length)) = 0) : nameEquals entry index rest = some true := by
  induction rest generalizing index with
  | nil =>
    have bound : index < maxFilename := inside
    rw [nameEquals, if_pos bound]
    simpa using ends
  | cons byte rest ih =>
    rw [List.length_cons] at inside
    have first : entry (4 + index) = byte := here 0 (Nat.succ_pos _)
    rw [nameEquals, if_pos (by omega), if_pos first]
    refine ih (by omega) ?_ ?_
    · intro place bound
      have later := here (place + 1) (Nat.succ_lt_succ bound)
      rw [List.getElem_cons_succ] at later
      rw [← later, Nat.add_assoc, Nat.add_comm 1 place]
    · rw [← ends, List.length_cons, Nat.add_assoc, Nat.add_comm 1]

theorem make_inode (ino : Word) (name : CString) : inode (make ino name) = ino := Bytes.word_setWord _ _ _

theorem make_name (ino : Word) (name : CString) (place : Nat) :
    make ino name (4 + place) = name.bytes.getD place 0 := by
  rw [make, Bytes.setWord_outside (by omega), Nat.add_sub_cancel_left]

/-- The entry that `diskfs_create` appends carries its name and number. -/
theorem answer_make (short : name.bytes.length < maxFilename) (nonzero : ino ≠ 0) :
    answer (make ino name) name = some (some ino.toInt) := by
  have equal : nameEquals (make ino name) 0 name.bytes = some true := by
    apply nameEquals_here
    · omega
    · intro place bound
      rw [make_name, Nat.zero_add, List.getD_eq_getElem _ _ bound]
    · rw [make_name, Nat.zero_add, List.getD_eq_default _ _ (Nat.le_refl _)]
  rw [answer, make_inode, if_neg nonzero, equal]
  rfl

end Dirent

namespace Diskfs

/-- The first answer of `turns` entries from the one at `i` on, or -1. -/
def seek (answers : Nat → Option (Option Int)) : Nat → Nat → Option Int
  | 0, _ => some (-1)
  | turns + 1, i => (answers i).bind fun answer => answer.elim (seek answers turns (i + 1)) some

section Seek

variable {answers others : Nat → Option (Option Int)} {turns i : Nat} {found : Int}

theorem seek_congr (same : ∀ j, i ≤ j → j < i + turns → others j = answers j) :
    seek others turns i = seek answers turns i := by
  induction turns generalizing i with
  | zero => rfl
  | succ turns ih =>
    rw [seek, seek, same i (Nat.le_refl _) (by omega), ih fun j lower upper => same j (by omega) (by omega)]

theorem seek_found (call : seek answers turns i = some found) (positive : 0 ≤ found) :
    ∃ j, j < i + turns ∧ answers j = some (some found) := by
  induction turns generalizing i with
  | zero =>
    have missing := Option.some.inj call
    omega
  | succ turns ih =>
    rw [seek] at call
    obtain ⟨answer, here, call⟩ := Option.bind_eq_some_iff.mp call
    cases answer with
    | some value =>
      obtain rfl : value = found := Option.some.inj call
      exact ⟨i, by omega, here⟩
    | none =>
      obtain ⟨j, bound, hit⟩ := ih call
      exact ⟨j, by omega, hit⟩

/-- More entries behind a hit make no difference. -/
theorem seek_hit (call : seek answers turns i = some found) (positive : 0 ≤ found) (more : Nat) :
    seek answers (turns + more) i = some found := by
  induction turns generalizing i with
  | zero =>
    have missing := Option.some.inj call
    omega
  | succ turns ih =>
    rw [seek] at call
    rw [Nat.add_right_comm, seek]
    obtain ⟨answer, here, call⟩ := Option.bind_eq_some_iff.mp call
    rw [here]
    cases answer with
    | some value => exact call
    | none => exact ih call

theorem seek_skip (silent : ∀ j, i ≤ j → j < i + turns → answers j = some none) (more : Nat) :
    seek answers (turns + more) i = seek answers more (i + turns) := by
  induction turns generalizing i with
  | zero => rw [Nat.zero_add, Nat.add_zero]
  | succ turns ih =>
    rw [Nat.add_right_comm, seek, silent i (Nat.le_refl _) (by omega)]
    refine (ih fun j lower upper => silent j (by omega) (by omega)).trans ?_
    rw [Nat.add_assoc, Nat.add_comm 1]

/-- A search that fails has gone through all entries, unless one has a negative number. -/
theorem seek_missing (call : seek answers turns i = some found) (missing : found < 0)
    (positive : ∀ j value, i ≤ j → j < i + turns → answers j = some (some value) → 0 ≤ value) :
    ∀ j, i ≤ j → j < i + turns → answers j = some none := by
  induction turns generalizing i with
  | zero =>
    intro j lower upper
    omega
  | succ turns ih =>
    intro j lower upper
    rw [seek] at call
    obtain ⟨answer, here, call⟩ := Option.bind_eq_some_iff.mp call
    cases answer with
    | some value =>
      have sign := positive i value (Nat.le_refl _) (by omega) here
      have equal : value = found := Option.some.inj call
      omega
    | none =>
      by_cases first : j = i
      · rw [first, here]
      · exact ih call (fun k value lower upper => positive k value (by omega) (by omega)) j (by omega) (by omega)

end Seek

section Entries

variable {fs : Diskfs} {drive : Byte} {ino : Word} {inode : Inode}

/-- What `diskfs_lookup` has in its entry after the read of turn `i`: a hole
leaves it as it was. -/
def entryAt (fs : Diskfs) (drive : Byte) (inode : Inode) (junk : Nat → Dirent) (i : Nat) : Dirent :=
  if directBlocks ≤ i / 16 ∨ inode.block (i / 16) = 0 then junk i
  else (junk i).copy 0 (fs.content drive (inode.block (i / 16))) (i % 16 * 32) Dirent.bytes

theorem contents_entry (fs : Diskfs) (drive : Byte) {i : Nat} (inside : (i + 1) * 32 ≤ inode.size.toNat)
    (junk : Nat → Dirent) :
    ∃ ret : Nat, fs.contents drive inode (junk i) (BitVec.ofNat 32 (i * Dirent.bytes)) (BitVec.ofNat 32 Dirent.bytes) =
      some ((ret : Int), fs.entryAt drive inode junk i) := by
  have limit := inode.size.isLt
  have start : (BitVec.ofNat 32 (i * Dirent.bytes)).toNat = i * 32 := by
    rw [BitVec.toNat_ofNat, Dirent.bytes]
    omega
  have length : (BitVec.ofNat 32 Dirent.bytes).toNat = 32 := rfl
  have behind : ¬ BitVec.ofNat 32 (i * Dirent.bytes) ≥ inode.size := by
    rw [ge_iff_le, BitVec.le_def, start]
    omega
  have uncut : ¬ BitVec.ofNat 32 (i * Dirent.bytes) + BitVec.ofNat 32 Dirent.bytes > inode.size := by
    rw [gt_iff_lt, BitVec.lt_def, BitVec.toNat_add, start, length]
    omega
  have block : (i * 32 + 0) / 512 = i / 16 := by omega
  have lane : (i * 32 + 0) % 512 = i % 16 * 32 := by omega
  have whole : chunk (i * 32 + 0) (32 - 0) = 32 := by
    rw [chunk]
    split <;> omega
  have turns : maxTurns = 11 + 1 + 1 := rfl
  rw [contents, if_neg behind]
  dsimp only
  rw [if_neg uncut, turns, scanLoop, position_eq (by omega), start, length, block, lane, whole,
    if_neg (by decide), entryAt]
  by_cases past : directBlocks ≤ i / 16
  · rw [if_pos past, if_pos (.inl past)]
    exact ⟨0, rfl⟩
  by_cases hole : inode.block (i / 16) = 0
  · rw [if_neg past, if_pos hole, if_pos (.inr hole)]
    exact ⟨0, rfl⟩
  · rw [if_neg past, if_neg hole, if_neg (not_or.mpr ⟨past, hole⟩), scanLoop, length, if_pos (by decide)]
    exact ⟨32, rfl⟩

theorem lookupLoop_seek (mounted : Mounted fs drive) (valid : ino.toNat < maxInodes) (slot : ino.toNat % 4 ≠ 3)
    (loaded : fs.inodeLoaded drive ino = fs) (junk : Nat → Dirent) (name : CString) {turns i : Nat}
    (inside : (i + turns) * 32 ≤ (fs.record drive ino).size.toNat) (transfers : Nat) :
    (lookupLoop junk ino name turns (fs.retime transfers) i).map Prod.fst =
      seek (fun j => Dirent.answer (fs.entryAt drive (fs.record drive ino) junk j) name) turns i := by
  induction turns generalizing i transfers with
  | zero => rfl
  | succ turns ih =>
    obtain ⟨later, read⟩ := read_eq (mounted.retime transfers) valid slot (junk i) (BitVec.ofNat 32 (i * Dirent.bytes))
      (BitVec.ofNat 32 Dirent.bytes)
    have same : (fs.retime transfers).contents drive ((fs.retime transfers).record drive ino) =
        fs.contents drive (fs.record drive ino) := rfl
    obtain ⟨ret, entry⟩ := contents_entry fs drive (by omega : (i + 1) * 32 ≤ (fs.record drive ino).size.toNat) junk
    rw [retime_inodeLoaded, loaded, same, entry] at read
    have rest := ih (by omega : (i + 1 + turns) * 32 ≤ (fs.record drive ino).size.toNat) later
    have again : (fs.retime transfers).retime later = fs.retime later := rfl
    rw [lookupLoop, seek, read]
    simp only [Option.map_some, Option.bind_eq_bind, Option.bind_some]
    rw [if_neg (by omega), Dirent.answer, again]
    by_cases unused : Dirent.inode (fs.entryAt drive (fs.record drive ino) junk i) = 0
    · rw [if_pos unused, if_pos unused]
      exact rest
    rw [if_neg unused, if_neg unused]
    cases Dirent.nameEquals (fs.entryAt drive (fs.record drive ino) junk i) 0 name.bytes with
    | none => rfl
    | some equal =>
      cases equal with
      | true => rfl
      | false => exact rest

/-- `diskfs_lookup` as a search through the entries of the directory. -/
theorem lookup_seek (mounted : Mounted fs drive) (valid : ino.toNat < maxInodes) (slot : ino.toNat % 4 ≠ 3)
    (junk : Nat → Dirent) (name : CString) :
    (fs.lookup junk ino name).map Prod.fst =
      if (fs.record drive ino).type ≠ typeDir then some (-1)
      else seek (fun j => Dirent.answer (fs.entryAt drive (fs.record drive ino) junk j) name)
        ((fs.record drive ino).size.toNat / Dirent.bytes) 0 := by
  obtain ⟨first, load⟩ := readInode_eq mounted valid slot
  have record : (fs.inodeLoaded drive ino).record drive ino = fs.record drive ino := mounted.record_inodeLoaded ino
  have entries : (fs.inodeLoaded drive ino).entryAt drive = fs.entryAt drive := by
    funext inode junk i
    rw [entryAt, entryAt, content, content, (inodeLoaded_cacheOnly fs drive ino).ata]
  rw [lookup, if_neg mounted.drive_ne, mounted.mounted, load]
  simp only [Option.bind_eq_bind, Option.bind_some]
  split
  · rfl
  · have search := @lookupLoop_seek _ _ _ (mounted.inodeLoaded ino) valid slot (mounted.inodeLoaded_twice ino) junk name
      ((fs.record drive ino).size.toNat / Dirent.bytes) 0 (by rw [record, Dirent.bytes]; omega) first
    rw [record, entries] at search
    exact search

/-- The entry in a block that is there is read over the whole buffer. -/
theorem entryAt_place {i place : Nat} (inside : i / 16 < directBlocks) (pointer : inode.block (i / 16) ≠ 0)
    (small : (inode.block (i / 16)).toNat < maxBlocks) (bound : place < Dirent.bytes) (junk : Nat → Dirent) :
    fs.entryAt drive inode junk i place =
      fs.ata.sectors drive (545 + (inode.block (i / 16)).toNat) (i % 16 * 32 + place) := by
  have limit : place < 32 := bound
  rw [entryAt, if_neg (by rw [not_or]; exact ⟨by omega, pointer⟩), Bytes.copy_inside (Nat.zero_le _) (by omega),
    content_eq small (by omega), Nat.sub_zero]

/-- The same file in the same blocks has the same entries. -/
theorem entryAt_congr {after : Diskfs} {later : Inode} (file : SameFile inode later)
    (same : ∀ index < directBlocks, inode.block index ≠ 0 →
      after.content drive (inode.block index) = fs.content drive (inode.block index)) :
    after.entryAt drive later = fs.entryAt drive inode := by
  funext junk i
  rw [entryAt, entryAt]
  by_cases past : directBlocks ≤ i / 16
  · rw [if_pos (.inl past), if_pos (.inl past)]
  rw [file.block _ (by omega)]
  by_cases hole : inode.block (i / 16) = 0
  · rw [if_pos (.inr hole), if_pos (.inr hole)]
  · rw [if_neg (not_or.mpr ⟨past, hole⟩), if_neg (not_or.mpr ⟨past, hole⟩), same _ (by omega) hole]

end Entries

section OneBlock

variable {fs : Diskfs} {drive : Byte} {ino : Word} {inode : Inode} {offset size : Word}

/-- The pointer is set, or there is a block for it. -/
def HasBlock (fs : Diskfs) (inode : Inode) (index : Nat) : Prop :=
  inode.block index ≠ 0 ∨ ∃ block < maxBlocks, fs.blockBitmap.test block = false

theorem HasBlock.claimed {index : Nat} (has : fs.HasBlock inode index) (mounted : Mounted fs drive) :
    ∃ mid new, Claimed fs inode index mid new ∧ fs.claimBlock inode index = some (some new, mid) := by
  rcases has with pointer | ⟨block, small, free⟩
  · exact ⟨fs, inode, .kept pointer, if_neg pointer⟩
  · by_cases pointer : inode.block index = 0
    · have total : fs.superblock.totalBlocks.toNat = maxBlocks := by
        rw [mounted.totalBlocks]
        rfl
      rcases bitmapFindFree_spec fs.blockBitmap (Nat.le_of_eq total) with ⟨_, full⟩ | ⟨bit, upper, found, unset, before⟩
      · rw [full block (total ▸ small)] at free
        cases free
      · rw [total] at upper
        refine ⟨_, _, .fresh bit pointer upper unset before, ?_⟩
        have sign : ¬ (bit : Int) < 0 := by omega
        rw [claimBlock, if_pos pointer, allocBlock, found]
        simp [sign, blockTaken]
    · exact ⟨fs, inode, .kept pointer, if_neg pointer⟩

/-- A `diskfs_write` inside one block claims it, stores the bytes and the
record. -/
theorem write_one (mounted : Mounted fs drive) (valid : ino.toNat < maxInodes) (slot : ino.toNat % 4 ≠ 3)
    (positive : 0 < size.toNat) (inside : offset.toNat + size.toNat ≤ 6144) (one : offset.toNat % 512 + size.toNat ≤ 512)
    (has : fs.HasBlock (fs.record drive ino) (offset.toNat / 512)) (source : Bytes) (now : Word) :
    ∃ first transfers mid new, Claimed ((fs.inodeLoaded drive ino).retime first) (fs.record drive ino) (offset.toNat / 512) mid new ∧
      fs.write ino source offset size now = some ((size.toNat : Int),
        ((mid.blockStored drive (new.block (offset.toNat / 512))
          (mid.chunkStored drive (new.block (offset.toNat / 512)) (offset.toNat % 512) source 0 size.toNat)).retime
            transfers).inodeWritten drive ino (finished new (offset + size) now)) := by
  have greatest : maxFileSize.toNat = 6144 := rfl
  have uncut : ¬ offset + size > maxFileSize := by
    rw [gt_iff_lt, BitVec.lt_def, BitVec.toNat_add, greatest]
    omega
  have whole : chunk offset.toNat size.toNat = size.toNat := by
    rw [chunk]
    split <;> omega
  have amount : BitVec.ofNat 32 size.toNat = size := by simp
  have turns : maxTurns = 11 + 1 + 1 := rfl
  have start : (offset + BitVec.ofNat 32 0).toNat = offset.toNat := by simp
  obtain ⟨first, load⟩ := readInode_eq mounted valid slot
  have loaded := inodeLoaded_cacheOnly fs drive ino
  have loadedMounted := (mounted.inodeLoaded ino).retime first
  have loadedHas : HasBlock ((fs.inodeLoaded drive ino).retime first) (fs.record drive ino) (offset.toNat / 512) := by
    rw [HasBlock, retime, loaded.blockBitmap]
    exact has
  obtain ⟨mid, new, claimed, claim⟩ := loadedHas.claimed loadedMounted
  have midMounted := claimed.mounted loadedMounted
  obtain ⟨transfers, store⟩ := storeChunk_eq midMounted (new.block (offset.toNat / 512)) (offset.toNat % 512) source 0 size.toNat
  have storedMounted := (midMounted.blockStored (new.block (offset.toNat / 512))
    (mid.chunkStored drive (new.block (offset.toNat / 512)) (offset.toNat % 512) source 0 size.toNat)).retime transfers
  have last := writeInode_eq storedMounted.working valid (finished new (offset + size) now)
  rw [if_neg slot, finished] at last
  refine ⟨first, transfers, mid, new, claimed, ?_⟩
  rw [write, if_neg mounted.drive_ne, mounted.mounted, load]
  simp only [Option.bind_eq_bind, Option.bind_some]
  rw [if_neg uncut, turns, writeLoop, start, if_neg (by omega), if_neg (by rw [directBlocks]; omega), claim]
  simp only
  rw [Nat.sub_zero, whole, store]
  simp only
  rw [writeLoop, Nat.zero_add, if_pos (Nat.le_refl _)]
  simp only [Option.bind_some]
  rw [amount, storedMounted.mounted, last]
  rfl

/-- What a write of `size` bytes inside one block has done, when `new` is the
inode with its pointer. -/
structure Spliced (fs : Diskfs) (drive : Byte) (ino : Word) (source : Bytes) (offset size now : Word) (new : Inode)
    (after : Diskfs) : Prop where
  own : Bytes.Same (finished new (offset + size) now) (after.onDisk drive ino.toNat) 0 Inode.bytes
  others : ∀ other < maxInodes, other ≠ ino.toNat → ∀ place < 128, after.onDisk drive other place =
    if other = ino.toNat + 1 ∧ place < 8 then fs.record drive ino (128 + place) else fs.onDisk drive other place
  fields : ∀ place, place < 8 ∨ 56 ≤ place → new place = fs.record drive ino place
  kept : ∀ index, (fs.record drive ino).block index ≠ 0 → new.block index = (fs.record drive ino).block index
  granted : fs.blockBitmap.test 0 = true ∨ (fs.record drive ino).block (offset.toNat / 512) ≠ 0 →
    new.block (offset.toNat / 512) ≠ 0
  written : ∀ place < size.toNat, after.ata.sectors drive (545 + (new.block (offset.toNat / 512)).toNat)
    (offset.toNat % 512 + place) = source place
  frame : ∀ place, place / 512 < directBlocks → (fs.record drive ino).block (place / 512) ≠ 0 →
    place < offset.toNat ∨ offset.toNat + size.toNat ≤ place →
    after.ata.sectors drive (545 + ((fs.record drive ino).block (place / 512)).toNat) (place % 512) =
      fs.ata.sectors drive (545 + ((fs.record drive ino).block (place / 512)).toNat) (place % 512)

theorem write_spliced (consistent : Consistent fs drive) (allocated : fs.allocated ino.toNat) (positive : 0 < size.toNat)
    (inside : offset.toNat + size.toNat ≤ 6144) (one : offset.toNat % 512 + size.toNat ≤ 512)
    (has : fs.HasBlock (fs.record drive ino) (offset.toNat / 512)) (source : Bytes) (now : Word) :
    ∃ after new, fs.write ino source offset size now = some ((size.toNat : Int), after) ∧
      Spliced fs drive ino source offset size now new after := by
  have slot := consistent.slots _ allocated
  have bound : offset.toNat / 512 < directBlocks := by
    rw [directBlocks]
    omega
  obtain ⟨first, transfers, mid, new, claimed, call⟩ := write_one consistent.toMounted allocated.1 slot positive inside one
    has source now
  have loaded := inodeLoaded_cacheOnly fs drive ino
  have start := (consistent.inodeLoaded ino).retime first
  have startTable : ((fs.inodeLoaded drive ino).retime first).onDisk drive = fs.onDisk drive := loaded.onDisk drive
  have startAllocated : ((fs.inodeLoaded drive ino).retime first).allocated ino.toNat := (loaded.allocated _).mpr allocated
  have draft := start.draft (by rw [startTable]; exact consistent.record_sameFile allocated)
  have target := claimed.target_taken (draft.own startAllocated) bound
  have ata : mid.ata.sectors = fs.ata.sectors := by
    rw [claimed.ata, retime, loaded.ata]
  have fields (place : Nat) (outside : place < 8 ∨ 56 ≤ place) : new place = fs.record drive ino place :=
    claimed.bytes_outside bound outside
  refine ⟨_, new, call, ?_⟩
  generalize stored : mid.chunkStored drive (new.block (offset.toNat / 512)) (offset.toNat % 512) source 0 size.toNat = chunk
  have table (other place : Nat) (valid : other < maxInodes) :
      ((mid.blockStored drive (new.block (offset.toNat / 512)) chunk).retime transfers).onDisk drive other place =
        fs.onDisk drive other place := by
    rw [maxInodes] at valid
    rw [onDisk, onDisk, retime, ← ata]
    exact congrFun (blockStored_other mid drive target.1 chunk (by omega)) _
  have data (sector : Nat) (behind : 545 ≤ sector) :
      (((mid.blockStored drive (new.block (offset.toNat / 512)) chunk).retime transfers).inodeWritten drive ino
        (finished new (offset + size) now)).ata.sectors drive sector =
        (mid.blockStored drive (new.block (offset.toNat / 512)) chunk).ata.sectors drive sector := by
    have limit : ino.toNat < 512 := allocated.1
    exact inodeWritten_sector_other allocated.1 _ (by omega)
  refine ⟨onDisk_inodeWritten_self allocated.1 _, ?_, fields, fun index nonzero => claimed.block_kept nonzero, ?_, ?_, ?_⟩
  · intro other valid differ place small
    rw [onDisk_inodeWritten_other allocated.1 slot _ differ small, table other place valid]
    split
    · next tail =>
      rw [finished_behind new (offset + size) now (128 + place) (by omega) (by rw [Inode.bytes]; omega),
        fields _ (.inr (by omega))]
    · rfl
  · intro grant
    apply claimed.target_ne_zero
    rw [retime, loaded.blockBitmap]
    exact grant
  · intro place small
    rw [data _ (by omega), blockStored_self mid drive target.1, ← stored, chunkStored, Bytes.copy_inside (by omega) (by omega)]
    congr 1
    omega
  · intro place within nonzero outside
    have present := draft.block_taken startAllocated within nonzero
    rw [data _ (by omega)]
    by_cases here : place / 512 = offset.toNat / 512
    · -- The block was there, so it was read before it was stored.
      have same : new.block (offset.toNat / 512) = (fs.record drive ino).block (place / 512) := by
        rw [← here]
        exact claimed.block_kept nonzero
      have partly : offset.toNat % 512 ≠ 0 ∨ size.toNat < 512 := by omega
      rw [← same, blockStored_self mid drive target.1, ← stored, chunkStored, if_pos partly,
        Bytes.copy_outside (by omega), content_eq target.1 (by omega), ata]
    · have apart : ((fs.record drive ino).block (offset.toNat / 512)).toNat ≠ ((fs.record drive ino).block (place / 512)).toNat := by
        intro equal
        exact here (draft.blocks_distinct startAllocated within bound nonzero (BitVec.eq_of_toNat_eq equal).symm)
      rw [blockStored_other mid drive target.1 chunk (by have := claimed.target_ne present apart; omega), ata]

end OneBlock

end Diskfs

end MexOS.Fs
