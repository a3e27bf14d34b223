import MexOS.Fs.Copies
import MexOS.Fs.FileSystem
import MexOS.Fs.Fresh
import MexOS.Fs.RamTree

/-! `fs_enable_disk` on a freshly formatted drive: it copies all nodes into the
root directory of the disk, of which two entries at most can be made. -/

namespace MexOS.Fs

open MexOS.Machine

namespace Diskfs

section Lookup

variable {fs after : Diskfs} {drive : Byte} {ino : Word}

/-- An entry of the directory, as `diskfs_lookup` reads it over what is in its
buffer. -/
def Entry (fs : Diskfs) (drive : Byte) (ino : Word) (junk : Nat → Dirent) (i : Nat) (entry : Dirent) : Prop :=
  ∃ ret, fs.contents drive (fs.record drive ino) (junk i) (BitVec.ofNat 32 (i * Dirent.bytes))
    (BitVec.ofNat 32 Dirent.bytes) = some (ret, entry)

theorem lookupLoop_found (mounted : Mounted fs drive) (valid : ino.toNat < maxInodes) (slot : ino.toNat % 4 ≠ 3)
    (loaded : fs.inodeLoaded drive ino = fs) {junk : Nat → Dirent} {name : CString} {turns i : Nat} {found : Int}
    (call : lookupLoop junk ino name turns fs i = some (found, after)) (positive : 0 ≤ found) :
    ∃ j entry, j < i + turns ∧ fs.Entry drive ino junk j entry ∧ Dirent.inode entry ≠ 0 ∧
      Dirent.nameEquals entry 0 name.bytes = some true ∧ found = (Dirent.inode entry).toInt := by
  induction turns generalizing fs i with
  | zero =>
    obtain ⟨missing, _⟩ := Prod.mk.inj (Option.some.inj call)
    omega
  | succ turns ih =>
    rw [lookupLoop] at call
    obtain ⟨⟨ret, entry, mid⟩, read, call⟩ := Option.bind_eq_some_iff.mp call
    obtain ⟨transfers, shape⟩ := read_eq mounted valid slot (junk i) (BitVec.ofNat 32 (i * Dirent.bytes))
      (BitVec.ofNat 32 Dirent.bytes)
    rw [read, loaded] at shape
    obtain ⟨⟨value, bytes⟩, contents, same⟩ := Option.map_eq_some_iff.mp shape.symm
    obtain ⟨rfl, rest⟩ := Prod.mk.inj same
    obtain ⟨rfl, rfl⟩ := Prod.mk.inj rest
    have later (remaining : lookupLoop junk ino name turns (fs.retime transfers) (i + 1) = some (found, after)) :
        ∃ j entry, j < i + (turns + 1) ∧ fs.Entry drive ino junk j entry ∧ Dirent.inode entry ≠ 0 ∧
          Dirent.nameEquals entry 0 name.bytes = some true ∧ found = (Dirent.inode entry).toInt := by
      have midLoaded : (fs.retime transfers).inodeLoaded drive ino = fs.retime transfers := by
        rw [retime_inodeLoaded, loaded]
      obtain ⟨j, entry, bound, here⟩ := ih (mounted.retime transfers) midLoaded remaining
      exact ⟨j, entry, by omega, here⟩
    simp only at call
    split at call
    · obtain ⟨missing, _⟩ := Prod.mk.inj (Option.some.inj call)
      omega
    split at call
    · exact later call
    · next used =>
      obtain ⟨equal, matched, call⟩ := Option.bind_eq_some_iff.mp call
      split at call
      · next hit =>
        obtain ⟨rfl, _⟩ := Prod.mk.inj (Option.some.inj call)
        exact ⟨i, bytes, by omega, ⟨value, contents⟩, used, hit ▸ matched, rfl⟩
      · exact later call

/-- What `diskfs_lookup` finds is an entry of the directory. -/
theorem lookup_found (mounted : Mounted fs drive) (valid : ino.toNat < maxInodes) (slot : ino.toNat % 4 ≠ 3)
    {junk : Nat → Dirent} {name : CString} {found : Int} (call : fs.lookup junk ino name = some (found, after))
    (positive : 0 ≤ found) :
    ∃ i entry, i < (fs.record drive ino).size.toNat / Dirent.bytes ∧ fs.Entry drive ino junk i entry ∧
      Dirent.inode entry ≠ 0 ∧ Dirent.nameEquals entry 0 name.bytes = some true ∧
      found = (Dirent.inode entry).toInt := by
  obtain ⟨first, load⟩ := readInode_eq mounted valid slot
  rw [lookup, if_neg mounted.drive_ne, mounted.mounted, load] at call
  simp only [Option.bind_eq_bind, Option.bind_some] at call
  split at call
  · obtain ⟨missing, _⟩ := Prod.mk.inj (Option.some.inj call)
    omega
  · have loaded : ((fs.inodeLoaded drive ino).retime first).inodeLoaded drive ino =
        (fs.inodeLoaded drive ino).retime first := by
      rw [retime_inodeLoaded, mounted.inodeLoaded_twice]
    obtain ⟨j, entry, bound, ⟨ret, contents⟩, facts⟩ :=
      lookupLoop_found ((mounted.inodeLoaded ino).retime first) valid slot loaded call positive
    refine ⟨j, entry, by omega, ⟨ret, ?_⟩, facts⟩
    have record : ((fs.inodeLoaded drive ino).retime first).record drive ino = fs.record drive ino :=
      mounted.record_inodeLoaded ino
    have same : ((fs.inodeLoaded drive ino).retime first).content drive = fs.content drive := by
      funext block
      rw [content, retime, (inodeLoaded_cacheOnly fs drive ino).ata]
      rfl
    rw [← contents, record, Diskfs.contents, Diskfs.contents, same]

end Lookup

/-- One entry has one name. -/
theorem dots_differ {entry : Dirent} (single : Dirent.nameEquals entry 0 [dot] = some true)
    (double : Dirent.nameEquals entry 0 [dot, dot] = some true) : False := by
  simp only [Dirent.nameEquals, maxFilename] at single double
  by_cases first : entry (4 + 0) = dot
  · simp only [first, ↓reduceIte, Nat.reduceLT] at single double
    by_cases second : entry (4 + 1) = dot
    · simp only [second] at single
      revert single
      decide
    · simp only [second, ↓reduceIte] at double
      cases double
  · simp only [first, ↓reduceIte, Nat.reduceLT] at single
    cases single

/-- Nothing but the root directory and at most one more inode. -/
structure Early (fs : Diskfs) (drive : Byte) : Prop extends Consistent fs drive where
  root : fs.inodeBitmap.test 0 = true
  free : fs.inodeBitmap.test 2 = false
  size : (fs.onDisk drive 0).size.toNat ≤ if fs.inodeBitmap.test 1 = true then 32 else 0
  tail : fs.inodeBitmap.test 1 = false → (fs.record drive 0).word 132 = 0

/-- Two inodes besides the root directory. The next one does not fit into its
sector, and the files need not be in order any more. -/
structure Late (fs : Diskfs) (drive : Byte) (rootSize rootBlock : Word) : Prop extends Mounted fs drive where
  full : fs.NextInode 3
  root : fs.Everywhere drive 0 fun inode => inode.size = rootSize ∧ inode.block 0 = rootBlock
  few : rootSize.toNat ≤ 64
  entry : rootSize.toNat = 64 → rootBlock ≠ 0 →
    fs.taken rootBlock.toNat ∧ (fs.ata.sectors drive (545 + rootBlock.toNat)).word 32 = 2
  barren : fs.Everywhere drive 2 fun inode => inode.type = typeDir → inode.size = 0

section Shallows

variable {inode other : Inode} (same : Bytes.Same inode other 0 56)

include same

theorem same_type : other.type = inode.type := same.word (by decide) (by decide)

theorem same_size : other.size = inode.size := same.word (by decide) (by decide)

theorem same_block {index : Nat} (bound : index < directBlocks) : other.block index = inode.block index := by
  have limit : index < 12 := bound
  exact same.word (by omega) (by omega)

end Shallows

section Holding

theorem shallow_barren : Shallow fun inode => inode.type = typeDir → inode.size = 0 := by
  intro inode other same here
  rw [same_type same, same_size same]
  exact here

theorem shallow_root {size block : Word} : Shallow fun inode => inode.size = size ∧ inode.block 0 = block := by
  intro inode other same here
  rw [same_size same, same_block same (by decide)]
  exact here

/-- A record without blocks. -/
def Blank (type : Word) (inode : Inode) : Prop :=
  inode.type = type ∧ inode.size = 0 ∧ ∀ index < directBlocks, inode.block index = 0

theorem shallow_blank {type : Word} : Shallow (Blank type) := by
  intro inode other same here
  refine ⟨(same_type same).trans here.1, (same_size same).trans here.2.1, ?_⟩
  intro index bound
  rw [same_block same bound]
  exact here.2.2 index bound

theorem blank_fresh (type parent now : Word) : Blank type (Inode.fresh type parent now) := by
  refine ⟨?_, fresh_size type parent now, fun _ bound => fresh_block type parent now bound⟩
  simp only [Inode.fresh, Inode.setMtime, Inode.setCtime, Inode.setParentInode, Inode.setSize, Inode.setType, Inode.type]
  rw [Bytes.word_setWord_of_apart (by omega), Bytes.word_setWord_of_apart (by omega),
    Bytes.word_setWord_of_apart (by omega), Bytes.word_setWord_of_apart (by omega), Bytes.word_setWord]

end Holding

section Stages

variable {fs after : Diskfs} {drive : Byte} {rootSize rootBlock : Word}

theorem Early.allocated_root (early : Early fs drive) : fs.allocated (0 : Word).toNat := ⟨by decide, early.root⟩

theorem Early.record_size (early : Early fs drive) : (fs.record drive 0).size = (fs.onDisk drive 0).size :=
  (early.toConsistent.record_sameFile early.allocated_root).size

theorem Early.loaded (early : Early fs drive) (transfers : Nat) : Early ((fs.inodeLoaded drive 0).retime transfers) drive := by
  have same := inodeLoaded_cacheOnly fs drive 0
  have table : ((fs.inodeLoaded drive 0).retime transfers).onDisk drive = fs.onDisk drive := same.onDisk drive
  have bitmap : ((fs.inodeLoaded drive 0).retime transfers).inodeBitmap = fs.inodeBitmap := same.inodeBitmap
  have record : ((fs.inodeLoaded drive 0).retime transfers).record drive 0 = fs.record drive 0 :=
    early.toMounted.record_inodeLoaded 0
  refine ⟨(early.toConsistent.inodeLoaded 0).retime transfers, ?_, ?_, ?_, ?_⟩
  · rw [bitmap]
    exact early.root
  · rw [bitmap]
    exact early.free
  · rw [bitmap, table]
    exact early.size
  · rw [bitmap, record]
    exact early.tail

theorem Early.of_quiet {mid : Diskfs} (consistent : Consistent after drive) (bitmap : after.inodeBitmap = mid.inodeBitmap)
    (root : mid.inodeBitmap.test 0 = true) (second : mid.inodeBitmap.test 1 = true) (free : mid.inodeBitmap.test 2 = false)
    (size : (after.onDisk drive 0).size.toNat ≤ 32) : Early after drive := by
  refine ⟨consistent, bitmap ▸ root, bitmap ▸ free, ?_, ?_⟩
  · rw [bitmap, if_pos second]
    exact size
  · intro unset
    rw [bitmap, second] at unset
    cases unset

theorem Late.quiet (late : Late fs drive rootSize rootBlock) (quiet : Quiet fs after drive fs.taken) :
    Late after drive rootSize rootBlock := by
  refine ⟨quiet.mounted, ?_, quiet.everywhere (by decide) late.root, late.few, ?_, quiet.everywhere (by decide) late.barren⟩
  · rw [NextInode, quiet.inodeBitmap]
    exact late.full
  · intro size block
    obtain ⟨present, word⟩ := late.entry size block
    rw [quiet.blocks _ present]
    exact ⟨quiet.taken _ present, word⟩

theorem Late.loaded (late : Late fs drive rootSize rootBlock) (ino : Word) (transfers : Nat) :
    Late ((fs.inodeLoaded drive ino).retime transfers) drive rootSize rootBlock := by
  have same := inodeLoaded_cacheOnly fs drive ino
  refine ⟨(late.toMounted.inodeLoaded ino).retime transfers, ?_,
    late.root.loaded (by decide) (by decide) shallow_root ino transfers, late.few, ?_,
    late.barren.loaded (by decide) (by decide) shallow_barren ino transfers⟩
  · rw [NextInode]
    have bitmap : ((fs.inodeLoaded drive ino).retime transfers).inodeBitmap = fs.inodeBitmap := same.inodeBitmap
    rw [bitmap]
    exact late.full
  · intro size block
    obtain ⟨present, word⟩ := late.entry size block
    have blocks : ((fs.inodeLoaded drive ino).retime transfers).blockBitmap = fs.blockBitmap := same.blockBitmap
    have sectors : ((fs.inodeLoaded drive ino).retime transfers).ata.sectors = fs.ata.sectors := by
      rw [retime, same.ata]
    rw [Diskfs.taken, blocks, sectors]
    exact ⟨present, word⟩

theorem NextInode.eq {first second : Nat} (left : fs.NextInode first) (right : fs.NextInode second) : first = second := by
  rcases Nat.lt_trichotomy first second with below | same | above
  · have present := right.2.2 first below
    rw [left.2.1] at present
    cases present
  · exact same
  · have present := left.2.2 second above
    rw [right.2.1] at present
    cases present

/-- The next inode would have number 3, whose record does not fit. -/
theorem Late.create (late : Late fs drive rootSize rootBlock) {junk : Nat → Dirent} {name : CString}
    {type created written : Word} {result : Int} (call : fs.create junk 0 name type created written = some (result, after)) :
    result < 0 ∧ Late after drive rootSize rootBlock := by
  rcases create_cases late.toMounted (by decide) (by decide) call with ⟨failed, same | ⟨transfers, same⟩⟩ |
    ⟨_, _, _, transfers, call⟩
  · rw [same]
    exact ⟨failed, late⟩
  · rw [same]
    exact ⟨failed, late.loaded 0 transfers⟩
  · have loaded := late.loaded 0 transfers
    rcases createEntry_cases loaded.toMounted call with ⟨failed, same⟩ | ⟨ino, next, slot, _⟩
    · rw [same]
      exact ⟨failed, loaded⟩
    · rw [next.eq loaded.full] at slot
      exact absurd rfl slot

/-- `diskfs_create` gets to `alloc_inode`: the name is short enough, and
`diskfs_lookup` finds no entry of the root directory with it. -/
def Asks (fs : Diskfs) (junk : Nat → Dirent) (name : CString) : Prop :=
  name.bytes.length < maxFilename ∧ ∃ parent opened found looked, fs.readInode fs.mountedDrive 0 = some (.ok parent, opened) ∧
    parent.type = typeDir ∧ opened.lookup junk 0 name = some (found, looked) ∧ found < 0

/-- A call that gets there leaves the sector buffer with the record. -/
theorem Late.create_leaves (late : Late fs drive rootSize rootBlock) {junk : Nat → Dirent} {name : CString}
    (asks : fs.Asks junk name) (type created written : Word) : fs.create junk 0 name type created written = none := by
  obtain ⟨short, parent, opened, found, looked, load, directory, look, absent⟩ := asks
  have mounted := late.toMounted
  rw [Diskfs.create, if_neg mounted.drive_ne, if_neg (Nat.not_le_of_lt short), load]
  obtain ⟨first, again⟩ := readInode_eq mounted (by decide : (0 : Word).toNat < maxInodes) (by decide)
  rw [mounted.mounted, again] at load
  obtain ⟨_, rfl⟩ := Prod.mk.inj (Option.some.inj load)
  have openedLate := late.loaded 0 first
  obtain ⟨⟨second, rfl⟩, _⟩ := lookup_state openedLate.toMounted (by decide) (by decide) look
  have lookedLate := openedLate.loaded 0 second
  simp only [Option.bind_eq_bind, Option.bind_some, directory, ne_eq, not_true_eq_false, ↓reduceIte, look, Int.not_le.mpr absent]
  generalize ((((fs.inodeLoaded drive 0).retime first).inodeLoaded drive 0).retime second) = last at lookedLate
  rcases allocInode_spec lookedLate.totalInodes with ⟨full, _⟩ | ⟨ino, valid, free, lowest, taken⟩
  · have unset := lookedLate.full.2.1
    rw [full 3 lookedLate.full.1] at unset
    cases unset
  obtain rfl : ino = 3 := NextInode.eq ⟨valid, free, lowest⟩ lookedLate.full
  have store := @writeInode_eq (last.inodeTaken 3) drive 3 lookedLate.working (by decide) (Inode.fresh type 0 created)
  have drive_same : (last.inodeTaken 3).mountedDrive = drive := lookedLate.mounted
  rw [createEntry, taken]
  simp only [Option.bind_eq_bind, Option.bind_some]
  rw [if_neg (by decide), drive_same]
  have number : BitVec.ofInt 32 ((3 : Nat) : Int) = 3 := rfl
  rw [number, store, if_pos (by decide)]
  rfl

theorem Late.write (late : Late fs drive rootSize rootBlock) {type : Word} (file : type ≠ typeDir)
    (blank : fs.Everywhere drive 2 (Blank type)) {source : Bytes} {offset size now : Word} {ret : Int}
    (call : fs.write 2 source offset size now = some (ret, after)) : Late after drive rootSize rootBlock := by
  have record := blank.record (by decide) (by decide) shallow_blank
  have avoids : Avoids (fs.record drive 2) fs.taken := by
    intro index bound nonzero
    exact absurd (record.2.2 index bound) nonzero
  obtain ⟨first, mid, stored, quiet, types, rfl⟩ :=
    write_quiet late.toMounted (by decide) (by decide) (fun _ present => present) avoids call
  have loaded := late.loaded 2 first
  have same := inodeLoaded_cacheOnly fs drive 2
  have blocks : ((fs.inodeLoaded drive 2).retime first).taken = fs.taken := by
    funext block
    have bitmap : ((fs.inodeLoaded drive 2).retime first).blockBitmap = fs.blockBitmap := same.blockBitmap
    rw [Diskfs.taken, bitmap]
    rfl
  have before := loaded.quiet (blocks ▸ quiet)
  have sector (block : Nat) : (mid.inodeWritten drive 2 stored).ata.sectors drive (545 + block) =
      mid.ata.sectors drive (545 + block) := by
    refine inodeWritten_sector_other (by decide) _ ?_
    have two : (2 : Word).toNat = 2 := rfl
    rw [two]
    omega
  refine ⟨before.toMounted.inodeWritten 2 stored, before.full, ?_, before.few, ?_, ?_⟩
  · exact before.root.inodeWritten_other (by decide) (by decide) (by decide) (by decide) shallow_root stored
  · intro size block
    rw [sector]
    exact before.entry size block
  · refine .inodeWritten before.toMounted (by decide) shallow_barren ?_
    intro directory
    rw [types, record.1] at directory
    exact absurd directory file

section Entries

variable {i : Nat} {name : CString} {type created written : Word} {ret : Int} {last : Diskfs}

/-- At most the 32 bytes of the entry are written. -/
theorem count_le {offset : Word} {count : Nat} (low : offset.toNat ≤ 32)
    (upper : count ≤ (cutSize offset (BitVec.ofNat 32 Dirent.bytes)).toNat) : count ≤ 32 := by
  have entry : (BitVec.ofNat 32 Dirent.bytes).toNat = 32 := rfl
  have greatest : maxFileSize.toNat = 6144 := rfl
  rw [cutSize, if_neg] at upper
  · exact upper
  · rw [gt_iff_lt, BitVec.lt_def, BitVec.toNat_add, greatest, entry]
    omega

theorem Early.first (early : Early fs drive) (hit : fs.cached 0 = some i) (next : fs.NextInode (1 : Word).toNat)
    (write : (fs.entered drive 1 0 type created).write 0 (Dirent.make 1 name) (fs.record drive 0).size
      (BitVec.ofNat 32 Dirent.bytes) written = some (ret, last)) :
    0 ≤ ret ∧ Early last.sync.2 drive ∧ last.sync.2.inodeBitmap.test 1 = true := by
  have unset : fs.inodeBitmap.test 1 = false := next.2.1
  have untaken : ¬ fs.allocated ((1 : Word).toNat + 1) := by
    intro taken
    have present : fs.inodeBitmap.test 2 = true := taken.2
    rw [early.free] at present
    cases present
  have empty : (fs.onDisk drive 0).size.toNat = 0 := by
    have size := early.size
    rw [unset, if_neg (by decide)] at size
    omega
  have fits : fs.EntryFits drive 0 (1 : Word).toNat := by
    refine ⟨by decide, fun taken => absurd taken untaken, ?_⟩
    rw [if_pos (by decide)]
    exact early.tail unset
  have entered := @Consistent.entered fs drive early.toConsistent 1 next.1 (by decide) (fun taken => absurd taken untaken)
    0 type created
  have parent : (fs.entered drive 1 0 type created).allocated (0 : Word).toNat :=
    (allocated_entered next.1 0 type created).mpr (.inr early.allocated_root)
  obtain ⟨count, after, call, upper, spec⟩ := write_spec entered parent
    (Synced.entered next early.allocated_root hit fits type created) (Dirent.make 1 name) (fs.record drive 0).size
    (BitVec.ofNat 32 Dirent.bytes) written
  rw [write] at call
  obtain ⟨rfl, rfl⟩ := Prod.mk.inj (Option.some.inj call)
  have offset : (fs.record drive 0).size.toNat = 0 := by rw [early.record_size, empty]
  have few := count_le (by omega) upper
  have kept : SameFile ((fs.inodeTaken 1).onDisk drive 0) ((fs.entered drive 1 0 type created).onDisk drive 0) :=
    inodeWritten_sameFile next.1 (by decide) (by decide) (fun same => absurd same (by decide))
  have before : ((fs.entered drive 1 0 type created).onDisk drive (0 : Word).toNat).size.toNat = 0 := by
    have same : ((fs.entered drive 1 0 type created).onDisk drive (0 : Word).toNat).size = _ := kept.size
    rw [same]
    exact empty
  have quiet := Quiet.sync spec.consistent.toMounted fun _ => False
  have test (bit : Nat) : last.sync.2.inodeBitmap.test bit = (decide (1 = bit) || fs.inodeBitmap.test bit) := by
    rw [quiet.inodeBitmap, spec.inodeBitmap]
    exact Bitmap.test_set _ (by decide) _ _
  have second : last.sync.2.inodeBitmap.test 1 = true := by rw [test]; rfl
  refine ⟨by omega, .of_quiet spec.consistent.sync rfl ?_ second ?_ ?_, second⟩
  · rw [test, early.root]
    rfl
  · rw [test, early.free]
    rfl
  · have size : (last.onDisk drive 0).size = _ := spec.size
    have reach : ((fs.record drive 0).size + BitVec.ofNat 32 count).toNat = count := by
      rw [position_eq (by omega), offset, Nat.zero_add]
    rw [quiet.onDisk (by decide), size]
    split
    · omega
    · omega

/-- Two entries in the root directory: the second is the one that was written
last, unless it went to block 0. -/
theorem Progress.late {base mid : Diskfs} {inode final : Inode} {offset now : Word} {count : Nat}
    (progress : Progress base drive 0 inode (Dirent.make 2 name) offset.toNat 0 mid final count)
    (parent : base.allocated 0) (size : inode.size = offset) (low : offset.toNat ≤ 32) (few : count ≤ 32)
    (next : base.NextInode 3)
    (blank : (mid.inodeWritten drive 0 (finished final (offset + BitVec.ofNat 32 count) now)).Everywhere drive 2
      (Blank type)) :
    Late (mid.inodeWritten drive 0 (finished final (offset + BitVec.ofNat 32 count) now)) drive
      (finished final (offset + BitVec.ofNat 32 count) now).size (final.block 0) := by
  have reach : (offset + BitVec.ofNat 32 count).toNat = offset.toNat + count := position_eq (by omega)
  have header : Bytes.Same inode final 0 8 := fun place _ upper => progress.fields place (.inl upper)
  have finalSize : final.size = offset := (header.word (by decide) (by decide)).trans size
  have total : (finished final (offset + BitVec.ofNat 32 count) now).size.toNat = offset.toNat + count := by
    rw [finished_size, finalSize]
    split
    · exact reach
    · next small =>
      rw [gt_iff_lt, BitVec.lt_def, reach] at small
      omega
  have midParent : mid.allocated 0 := by
    rw [Diskfs.allocated, progress.inodeBitmap]
    exact parent
  refine ⟨progress.draft.toMounted.inodeWritten 0 _, ?_, ?_, ?_, ?_, blank.imp fun _ blank _ => blank.2.1⟩
  · have bitmap : (mid.inodeWritten drive 0 (finished final (offset + BitVec.ofNat 32 count) now)).inodeBitmap = _ :=
      progress.inodeBitmap
    rw [NextInode, bitmap]
    exact next
  · refine .inodeWritten progress.draft.toMounted (by decide) shallow_root ⟨rfl, ?_⟩
    exact finished_block (by decide)
  · omega
  · intro whole nonzero
    rw [total] at whole
    have present := progress.draft.block_taken midParent (by decide : 0 < directBlocks) nonzero
    have sector : (mid.inodeWritten drive 0 (finished final (offset + BitVec.ofNat 32 count) now)).ata.sectors drive
        (545 + (final.block 0).toNat) = mid.ata.sectors drive (545 + (final.block 0).toNat) := by
      refine inodeWritten_sector_other (by decide) _ ?_
      have zero : (0 : Word).toNat = 0 := rfl
      rw [zero]
      omega
    have stored (lane : Nat) (small : lane < 4) :
        mid.ata.sectors drive (545 + (final.block 0).toNat) (32 + lane) = Dirent.make 2 name lane := by
      have index : (offset.toNat + lane) / 512 = 0 := by omega
      have place : (offset.toNat + lane) % 512 = 32 + lane := by omega
      have byte := progress.stored lane (Nat.zero_le _) (by omega)
      rw [index, place] at byte
      exact byte nonzero
    refine ⟨present, ?_⟩
    rw [sector]
    simp only [Bytes.word]
    rw [stored 3 (by decide), stored 2 (by decide), stored 1 (by decide)]
    have first := stored 0 (by decide)
    rw [Nat.add_zero] at first
    rw [first]
    exact Bytes.word_setWord _ 0 2

/-- The second entry goes behind the first, but what the root directory's
record says of inode 1 is stored with it. -/
theorem Early.second (early : Early fs drive) (hit : fs.cached 0 = some i) (used : fs.inodeBitmap.test 1 = true)
    (next : fs.NextInode (2 : Word).toNat)
    (write : (fs.entered drive 2 0 type created).write 0 (Dirent.make 2 name) (fs.record drive 0).size
      (BitVec.ofNat 32 Dirent.bytes) written = some (ret, last)) :
    0 ≤ ret ∧ last.sync.2.Everywhere drive 2 (Blank type) ∧
      ∃ rootSize rootBlock, Late last.sync.2 drive rootSize rootBlock := by
  have untaken : ¬ fs.allocated 3 := fun taken => early.slots 3 taken rfl
  have entered := @Consistent.entered fs drive early.toConsistent 2 next.1 (by decide) (fun taken => absurd taken untaken)
    0 type created
  have parent : (fs.entered drive 2 0 type created).allocated (0 : Word).toNat :=
    (allocated_entered next.1 0 type created).mpr (.inr early.allocated_root)
  have record := @record_entered fs drive 0 2 i hit (by decide) type created
  have low : (fs.record drive 0).size.toNat ≤ 32 := by
    have size := early.size
    rw [used, if_pos rfl] at size
    rw [early.record_size]
    exact size
  obtain ⟨first, count, mid, final, call, upper, progress⟩ := write_progress entered parent (Dirent.make 2 name)
    (fs.record drive 0).size (BitVec.ofNat 32 Dirent.bytes) written
  have few := count_le low upper
  have blank : last.Everywhere drive 2 (Blank type) := by
    have taken : Mounted (fs.inodeTaken 2) drive :=
      (@Consistent.inodeTaken fs drive 2 early.toConsistent next.1 (by decide) (Inode.fresh type 0 created)
        fun index bound => fresh_block type 0 created bound).toMounted
    have start : (fs.entered drive 2 0 type created).Everywhere drive 2 (Blank type) :=
      .inodeWritten taken (by decide) shallow_blank (blank_fresh type 0 created)
    have avoids : Avoids ((fs.entered drive 2 0 type created).record drive 0) fun _ => False := by
      intro index bound nonzero
      have file := entered.record_sameFile parent
      rw [file.block index bound] at nonzero ⊢
      have held : (fs.entered drive 2 0 type created).holds ((fs.entered drive 2 0 type created).onDisk drive)
          ((0 : Word).toNat, index) = some _ := holds_eq_some.mpr ⟨parent, bound, nonzero, rfl⟩
      exact ⟨(entered.exclusive.taken held).1, fun impossible => impossible⟩
    obtain ⟨load, quieted, stored, quiet, _, rfl⟩ := write_quiet entered.toMounted (by decide) (by decide)
      (fun _ impossible => impossible.elim) avoids write
    exact (quiet.everywhere (by decide) (start.loaded (by decide) (by decide) shallow_blank 0 load)).inodeWritten_other
      (by decide) (by decide) (by decide) (by decide) shallow_blank stored
  rw [write] at call
  obtain ⟨rfl, rfl⟩ := Prod.mk.inj (Option.some.inj call)
  have loaded := inodeLoaded_cacheOnly (fs.entered drive 2 0 type created) drive 0
  have full : ((fs.entered drive 2 0 type created).inodeLoaded drive 0).inodeBitmap = fs.inodeBitmap.set 2 :=
    loaded.inodeBitmap
  have late := progress.late ((loaded.allocated _).mpr parent) (congrArg Inode.size record) low few ?_ blank
  · exact ⟨by omega, (Quiet.sync late.toMounted fun _ => False).everywhere (by decide) blank, _, _,
      late.quiet (.sync late.toMounted _)⟩
  · have test (bit : Nat) : (fs.inodeBitmap.set 2).test bit = (decide (2 = bit) || fs.inodeBitmap.test bit) :=
      Bitmap.test_set _ (by decide) _ _
    have third : fs.inodeBitmap.test 3 = false := by
      rw [Bool.eq_false_iff]
      exact fun present => untaken ⟨by decide, present⟩
    rw [NextInode]
    have bitmap : (((fs.entered drive 2 0 type created).inodeLoaded drive 0).retime first).inodeBitmap = _ := full
    rw [bitmap]
    refine ⟨by decide, by rw [test, third]; rfl, ?_⟩
    intro earlier below
    rw [test]
    have cases : earlier = 0 ∨ earlier = 1 ∨ earlier = 2 := by omega
    rcases cases with rfl | rfl | rfl
    · rw [early.root]
      rfl
    · rw [used]
      rfl
    · rfl

end Entries

theorem Early.create (early : Early fs drive) {junk : Nat → Dirent} {name : CString} {type created written : Word}
    {result : Int} (call : fs.create junk 0 name type created written = some (result, after)) :
    (result < 0 ∧ Early after drive) ∨
      (result = 1 ∧ Early after drive ∧ after.inodeBitmap.test 1 = true) ∨
      (result = 2 ∧ after.Everywhere drive 2 (Blank type) ∧ ∃ rootSize rootBlock, Late after drive rootSize rootBlock) := by
  rcases create_cases early.toMounted (by decide) (by decide) call with ⟨failed, same | ⟨transfers, same⟩⟩ |
    ⟨_, _, _, transfers, call⟩
  · rw [same]
    exact .inl ⟨failed, early⟩
  · rw [same]
    exact .inl ⟨failed, early.loaded transfers⟩
  · have loaded := early.loaded transfers
    have record : ((fs.inodeLoaded drive 0).retime transfers).record drive 0 = fs.record drive 0 :=
      early.toMounted.record_inodeLoaded 0
    obtain ⟨i, hit, _⟩ := early.toMounted.cached_inodeLoaded 0
    rw [← record] at call
    rcases createEntry_cases loaded.toMounted call with ⟨failed, same⟩ | ⟨ino, next, slot, ret, last, write, returned⟩
    · rw [same]
      exact .inl ⟨failed, loaded⟩
    · right
      cases used : ((fs.inodeLoaded drive 0).retime transfers).inodeBitmap.test 1 with
      | false =>
        have one : ((fs.inodeLoaded drive 0).retime transfers).NextInode 1 := by
          refine ⟨by decide, used, ?_⟩
          intro earlier below
          rw [Nat.lt_one_iff.mp below]
          exact loaded.root
        have number : ino = 1 := BitVec.eq_of_toNat_eq (next.eq one)
        subst number
        obtain ⟨positive, later, present⟩ := loaded.first hit next write
        obtain ⟨value, rfl⟩ := returned positive
        exact .inl ⟨value, later, present⟩
      | true =>
        have two : ((fs.inodeLoaded drive 0).retime transfers).NextInode 2 := by
          refine ⟨by decide, loaded.free, ?_⟩
          intro earlier below
          have cases : earlier = 0 ∨ earlier = 1 := by omega
          rcases cases with rfl | rfl
          · exact loaded.root
          · exact used
        have number : ino = 2 := BitVec.eq_of_toNat_eq (next.eq two)
        subst number
        obtain ⟨positive, blank, later⟩ := loaded.second hit used next write
        obtain ⟨value, rfl⟩ := returned positive
        exact .inr ⟨value, blank, later⟩

theorem Early.write (early : Early fs drive) (used : fs.inodeBitmap.test 1 = true) {source : Bytes}
    {offset size now : Word} {ret : Int} (call : fs.write 1 source offset size now = some (ret, after)) :
    Early after drive := by
  have untaken : ¬ fs.allocated ((1 : Word).toNat + 1) := by
    intro taken
    have present : fs.inodeBitmap.test 2 = true := taken.2
    rw [early.free] at present
    cases present
  obtain ⟨count, last, again, _, written⟩ := @write_spec fs drive 1 early.toConsistent ⟨by decide, used⟩
    (fun taken => absurd taken untaken) source offset size now
  rw [call] at again
  obtain ⟨_, rfl⟩ := Prod.mk.inj (Option.some.inj again)
  refine .of_quiet written.consistent written.inodeBitmap early.root used early.free ?_
  have same : SameFile (fs.onDisk drive 0) (after.onDisk drive 0) := (written.others 0 (by decide) early.allocated_root).file
  have before := early.size
  rw [used, if_pos rfl] at before
  rw [same.size]
  exact before

/-- Either of the two. -/
def Filling (fs : Diskfs) (drive : Byte) : Prop :=
  Early fs drive ∨ ∃ rootSize rootBlock, Late fs drive rootSize rootBlock

theorem Filling.sync (filling : Filling fs drive) : Filling fs.sync.2 drive := by
  rcases filling with early | ⟨rootSize, rootBlock, late⟩
  · left
    have quiet := Quiet.sync early.toMounted fun _ => False
    refine ⟨early.toConsistent.sync, ?_, ?_, ?_, ?_⟩
    · rw [quiet.inodeBitmap]
      exact early.root
    · rw [quiet.inodeBitmap]
      exact early.free
    · rw [quiet.inodeBitmap, quiet.onDisk (by decide)]
      exact early.size
    · intro unset
      rw [quiet.inodeBitmap] at unset
      rw [quiet.record (by decide)]
      exact early.tail unset
  · exact .inr ⟨rootSize, rootBlock, late.quiet (.sync late.toMounted _)⟩

/-- The directory with two entries, as `diskfs_lookup` reads the second. -/
theorem Late.entry_inode (late : Late fs drive rootSize rootBlock) {entry : Dirent} {junk : Nat → Dirent}
    (clean : junk 1 = Bytes.zero) (whole : rootSize.toNat = 64) (read : fs.Entry drive 0 junk 1 entry)
    (used : Dirent.inode entry ≠ 0) : Dirent.inode entry = 2 := by
  obtain ⟨size, block⟩ := late.root.record (by decide) (by decide) shallow_root
  obtain ⟨ret, contents⟩ := read
  have offset : (BitVec.ofNat 32 (1 * Dirent.bytes)).toNat = 32 := rfl
  have amount : (BitVec.ofNat 32 Dirent.bytes).toNat = 32 := rfl
  have last : (BitVec.ofNat 32 (1 * Dirent.bytes) + BitVec.ofNat 32 Dirent.bytes).toNat = 64 := rfl
  have inside : ¬ BitVec.ofNat 32 (1 * Dirent.bytes) ≥ (fs.record drive 0).size := by
    rw [size, ge_iff_le, BitVec.le_def, offset]
    omega
  have uncut : ¬ BitVec.ofNat 32 (1 * Dirent.bytes) + BitVec.ofNat 32 Dirent.bytes > (fs.record drive 0).size := by
    rw [size, gt_iff_lt, BitVec.lt_def, last]
    omega
  rw [Diskfs.contents, if_neg inside, if_neg uncut, clean] at contents
  obtain ⟨⟨count, bytes⟩, scan, same⟩ := Option.map_eq_some_iff.mp contents
  obtain ⟨_, rfl⟩ := Prod.mk.inj same
  by_cases hole : rootBlock = 0
  · -- The pointer reads as unallocated, so the entry is what was in the buffer.
    rw [maxTurns, directBlocks, scanLoop, position_eq (by decide), offset, amount, if_neg (by decide), if_neg (by decide),
      if_pos (block.trans hole)] at scan
    obtain ⟨_, rfl⟩ := Prod.mk.inj (Option.some.inj scan)
    exact absurd (Bytes.word_zero 0) used
  · obtain ⟨present, word⟩ := late.entry whole hole
    obtain ⟨result, full, _, read⟩ := @scanLoop_full (fs.record drive 0) (fs.content drive)
      (BitVec.ofNat 32 (1 * Dirent.bytes)) (BitVec.ofNat 32 Dirent.bytes) (by decide) (by
        intro moved below
        have index : ((BitVec.ofNat 32 (1 * Dirent.bytes)).toNat + moved) / 512 = 0 := by omega
        rw [index, block]
        exact hole) maxTurns 0 (Nat.zero_le _) (by decide) (.inl (by decide)) Bytes.zero
    rw [scan] at full
    obtain ⟨_, rfl⟩ := Prod.mk.inj (Option.some.inj full)
    have byte (lane : Nat) (small : lane < 4) :
        bytes lane = fs.ata.sectors drive (545 + rootBlock.toNat) (32 + lane) := by
      have index : ((BitVec.ofNat 32 (1 * Dirent.bytes)).toNat + lane) / 512 = 0 := by omega
      have place : ((BitVec.ofNat 32 (1 * Dirent.bytes)).toNat + lane) % 512 = 32 + lane := by omega
      rw [read lane (Nat.zero_le _) (by omega), index, place, block, content_eq present.1 (by omega)]
    rw [← word, Dirent.inode]
    simp only [Bytes.word]
    rw [byte 3 (by decide), byte 2 (by decide), byte 1 (by decide), byte 0 (by decide)]

/-- The second inode has no entries. -/
theorem Late.nested (late : Late fs drive rootSize rootBlock) {junk : Nat → Dirent} {name : CString} {found : Int}
    (call : fs.lookup junk 2 name = some (found, after)) : found < 0 := by
  by_contra positive
  obtain ⟨directory, nonempty⟩ := (lookup_state late.toMounted (by decide) (by decide) call).2 (by omega)
  have empty := late.barren.record (by decide) (by decide) shallow_barren directory
  rw [empty] at nonempty
  exact absurd nonempty (by decide)

theorem Entry.unique {ino : Word} {junk : Nat → Dirent} {i : Nat} {entry other : Dirent} (left : fs.Entry drive ino junk i entry)
    (right : fs.Entry drive ino junk i other) : other = entry := by
  obtain ⟨_, first⟩ := left
  obtain ⟨_, second⟩ := right
  rw [first] at second
  exact (Prod.mk.inj (Option.some.inj second)).2.symm

/-- `.` and `..` cannot both lead to a directory that has entries. -/
theorem Filling.dots (filling : Filling fs drive) {junk : Nat → Dirent} (clean : junk 1 = Bytes.zero)
    {single double : CString} (singleBytes : single.bytes = [dot]) (doubleBytes : double.bytes = [dot, dot])
    {first second : Int} {left right : Diskfs} (here : fs.lookup junk 0 single = some (first, left))
    (there : fs.lookup junk 0 double = some (second, right)) (one : 0 ≤ first) (two : 0 ≤ second) :
    (first = 2 ∨ second = 2) ∧ ∃ rootSize rootBlock, Late fs drive rootSize rootBlock := by
  have mounted : Mounted fs drive := by
    rcases filling with early | ⟨_, _, late⟩
    · exact early.toMounted
    · exact late.toMounted
  obtain ⟨i, entry, iBound, iEntry, iUsed, iNamed, iValue⟩ := lookup_found mounted (by decide) (by decide) here one
  obtain ⟨j, other, jBound, jEntry, jUsed, jNamed, jValue⟩ := lookup_found mounted (by decide) (by decide) there two
  rw [singleBytes] at iNamed
  rw [doubleBytes] at jNamed
  have apart : i ≠ j := by
    rintro rfl
    rw [iEntry.unique jEntry] at jNamed
    exact dots_differ iNamed jNamed
  have bytes : Dirent.bytes = 32 := rfl
  rcases filling with early | ⟨rootSize, rootBlock, late⟩
  · have size := early.size
    rw [early.record_size, bytes] at iBound jBound
    split at size <;> omega
  · obtain ⟨size, _⟩ := late.root.record (by decide) (by decide) shallow_root
    have few := late.few
    rw [size, bytes] at iBound jBound
    have whole : rootSize.toNat = 64 := by omega
    refine ⟨?_, rootSize, rootBlock, late⟩
    rcases (by omega : i = 1 ∨ j = 1) with rfl | rfl
    · left
      rw [iValue, late.entry_inode clean whole iEntry iUsed]
      rfl
    · right
      rw [jValue, late.entry_inode clean whole jEntry jUsed]
      rfl

end Stages

end Diskfs

namespace FileSystem

/-- The path names a directory on the disk. -/
def NamesDir (fs : FileSystem) (walked : Nat → Nat → Dirent) (path : CString) : Prop :=
  ∃ ino disk inode last, fs.resolveToDiskfsInode walked path = some (ino, disk) ∧ 0 ≤ ino ∧
    disk.readInode disk.mountedDrive (BitVec.ofInt 32 ino) = some (.ok inode, last) ∧ inode.type = typeDir

/-- The tree in memory is on the disk, for all that absolute paths can tell. -/
structure Migrated (ram : RamFs) (fs : FileSystem) : Prop where
  files : ∀ path idx, path.bytes.head? = some slash → ram.resolveFullPath path = .ok idx → (ram.nodes idx).type = .file →
    ∀ ambient buffer, ∃ result last,
      fs.read path ambient buffer 4096 = some (((ram.nodes idx).content.length : Int), result, last) ∧
      result.toList (ram.nodes idx).content.length = (ram.nodes idx).content
  dirs : ∀ path idx, path.bytes.head? = some slash → ram.resolveFullPath path = .ok idx → (ram.nodes idx).type = .dir →
    ∀ walked, fs.NamesDir walked path

variable {fs : FileSystem} {ram : RamFs}

section Paths

theorem walk_one {walked : Nat → Nat → Dirent} {disk last : Diskfs} {token : List Byte} {ino : Int}
    (nonempty : token.take (maxFilename - 1) ≠ []) (call : walk walked 0 disk 0 [token] = some (ino, last))
    (positive : 0 ≤ ino) :
    disk.lookup (walked 0) 0 (CString.ofBytes (token.take (maxFilename - 1))) = some (ino, last) := by
  simp only [walk, nonempty, ↓reduceIte] at call
  obtain ⟨⟨found, mid⟩, look, call⟩ := Option.bind_eq_some_iff.mp call
  simp only at call
  split at call
  · obtain ⟨rfl, _⟩ := Prod.mk.inj (Option.some.inj call)
    omega
  · obtain ⟨rfl, rfl⟩ := Prod.mk.inj (Option.some.inj call)
    exact look

theorem walk_two {walked : Nat → Nat → Dirent} {disk last : Diskfs} {first second : List Byte} {ino : Int}
    (left : first.take (maxFilename - 1) ≠ []) (right : second.take (maxFilename - 1) ≠ [])
    (call : walk walked 0 disk 0 [first, second] = some (ino, last)) (positive : 0 ≤ ino) :
    ∃ found mid, disk.lookup (walked 0) 0 (CString.ofBytes (first.take (maxFilename - 1))) = some (found, mid) ∧
      mid.lookup (walked 1) (BitVec.ofInt 32 found) (CString.ofBytes (second.take (maxFilename - 1))) = some (ino, last) := by
  simp only [walk, left, right, ↓reduceIte] at call
  obtain ⟨⟨found, mid⟩, look, call⟩ := Option.bind_eq_some_iff.mp call
  simp only at call
  split at call
  · obtain ⟨rfl, _⟩ := Prod.mk.inj (Option.some.inj call)
    omega
  · obtain ⟨⟨deeper, rest⟩, again, call⟩ := Option.bind_eq_some_iff.mp call
    simp only at call
    split at call
    · obtain ⟨rfl, _⟩ := Prod.mk.inj (Option.some.inj call)
      omega
    · obtain ⟨rfl, rfl⟩ := Prod.mk.inj (Option.some.inj call)
      exact ⟨found, mid, look, again⟩

end Paths

theorem root_dir_step {before after : RamFs} (root : before.Dir 0) (step : RamFs.Step before after) : after.Dir 0 := by
  obtain ⟨call, _, code, result⟩ := step
  have rewritten {idx : Index} {node : FsNode} (used : node.used = (before.nodes idx).used)
      (type : node.type = (before.nodes idx).type) : (before.setNode idx node).Dir 0 := by
    by_cases here : 0 = idx
    · subst here
      rw [RamFs.Dir, RamFs.setNode_self, used, type]
      exact root
    · rw [RamFs.Dir, RamFs.setNode_other before node here]
      exact root
  cases call.outcome result with
  | failed => exact root
  | @created _ _ idx node _ _ _ _ free =>
    have other : 0 ≠ idx := by
      rintro rfl
      rw [root.1] at free
      cases free
    rw [RamFs.Dir, RamFs.setNode_other before node other]
    exact root
  | removed _ inner =>
    rw [RamFs.Dir, RamFs.setNode_other before _ inner.symm]
    exact root
  | written | appended => exact rewritten rfl rfl
  | moved => exact root
  | cleared => exact root

section Migrating

variable {before : Diskfs} {drive : Byte}

/-- The state that a freshly formatted drive is mounted in. -/
theorem early_mounted (working : before.ata.Working drive) (now : Word) :
    ∃ ready, (before.formatted drive now).mount drive = (0, ready) ∧ Diskfs.Early ready drive := by
  obtain ⟨ready, mount, consistent⟩ := Diskfs.fresh_consistent working now
  obtain ⟨transfers, shape⟩ := Diskfs.mount_eq working now
  rw [shape] at mount
  obtain ⟨_, result⟩ := Prod.mk.inj mount
  have test (bit : Nat) : ready.inodeBitmap.test bit = (decide (0 = bit) || Bitmap.test (Bytes.zero : Bitmap 8) bit) := by
    rw [← result]
    exact Bitmap.test_set _ (by decide) _ _
  have root : Bytes.Same (Inode.fresh typeDir 0 now) (ready.onDisk drive 0) 0 Inode.bytes := by
    rw [← result]
    exact @Diskfs.onDisk_inodeWritten_self { before.blank with ata := before.blank.metadataStored drive } drive 0
      (by decide) _
  have miss : ready.cached 0 = none := by
    rw [← result]
    rfl
  refine ⟨ready, by rw [shape, result], consistent, ?_, ?_, ?_, ?_⟩
  · rw [test]
    rfl
  · rw [test]
    rfl
  · have size : (ready.onDisk drive 0).size = 0 :=
      (root.word (by decide) (by decide)).trans (Diskfs.fresh_size typeDir 0 now)
    rw [size]
    exact Nat.zero_le _
  · intro _
    have record : Bytes.Same (ready.onDisk drive 0) (ready.record drive 0) 0 Inode.bytes :=
      Diskfs.record_of_miss (by decide) (by decide) miss
    rw [record.word (by decide) (by decide), root.word (by decide) (by decide), Diskfs.fresh_tail]

theorem diskType_file {type : NodeType} (file : type = .file) : diskType type ≠ typeDir := by
  subst file
  decide

theorem migrate_step {ambient : Index → Ambient} {disk last : Diskfs} {i : Index} (filling : disk.Filling drive)
    (call : migrate ram ambient disk i = some last) : last.Filling drive := by
  unfold migrate at call
  dsimp only at call
  split at call
  · obtain ⟨⟨ino, mid⟩, create, call⟩ := Option.bind_eq_some_iff.mp call
    simp only at call
    rcases filling with early | ⟨rootSize, rootBlock, late⟩
    · rcases early.create create with ⟨failed, later⟩ | ⟨value, later, used⟩ | ⟨value, blank, rootSize, rootBlock, later⟩
      · rw [if_neg (by omega)] at call
        cases call
        exact .inl later
      · subst value
        split at call
        · obtain ⟨⟨ret, done⟩, write, call⟩ := Option.bind_eq_some_iff.mp call
          cases call
          exact .inl (later.write used write)
        · cases call
          exact .inl later
      · subst value
        split at call
        · next file =>
          obtain ⟨⟨ret, done⟩, write, call⟩ := Option.bind_eq_some_iff.mp call
          cases call
          exact .inr ⟨rootSize, rootBlock, later.write (diskType_file file.2) blank write⟩
        · cases call
          exact .inr ⟨rootSize, rootBlock, later⟩
    · obtain ⟨failed, later⟩ := late.create create
      rw [if_neg (by omega)] at call
      cases call
      exact .inr ⟨rootSize, rootBlock, later⟩
  · cases call
    exact filling

theorem migrate_run {ambient : Index → Ambient} {disk last : Diskfs} {indices : List Index} (filling : disk.Filling drive)
    (call : indices.foldlM (migrate ram ambient) disk = some last) : last.Filling drive := by
  induction indices generalizing disk with
  | nil =>
    cases call
    exact filling
  | cons i rest ih =>
    rw [List.foldlM_cons] at call
    obtain ⟨mid, step, call⟩ := Option.bind_eq_some_iff.mp call
    exact ih (migrate_step filling step) call

/-- The state after `fs_enable_disk` has returned 0. -/
theorem enableDisk_filling {formatted : Diskfs} {now later : Word} {ambient : Index → Ambient} {after : FileSystem}
    (working : before.ata.Working drive) (format : before.format drive now = some (0, formatted))
    (enable : ({ ram, diskEnabled := false, disk := formatted } : FileSystem).enableDisk drive later ambient = some (0, after)) :
    after.diskEnabled = true ∧ after.disk.Filling drive := by
  rw [Diskfs.format_eq working now] at format
  obtain ⟨_, rfl⟩ := Prod.mk.inj (Option.some.inj format)
  obtain ⟨ready, mount, early⟩ := early_mounted working now
  rw [enableDisk, Diskfs.init] at enable
  dsimp only at enable
  rw [mount] at enable
  simp only [Option.bind_eq_bind, Option.bind_some, ↓reduceIte] at enable
  obtain ⟨disk, run, enable⟩ := Option.bind_eq_some_iff.mp enable
  obtain ⟨_, rfl⟩ := Prod.mk.inj (Option.some.inj enable)
  exact ⟨rfl, (migrate_run (.inl early) run).sync⟩

/-- A turn of `fs_enable_disk` that asks for inode 3 leaves the sector buffer, so the
call returns for no tree that needs a third inode. -/
theorem enableDisk_leaves {formatted ready disk : Diskfs} {now later : Word} {ambient : Index → Ambient}
    {front back : List Index} {i : Index} (working : before.ata.Working drive)
    (format : before.format drive now = some (0, formatted)) (mount : formatted.mount drive = (0, ready))
    (turns : RamFs.indices.tail = front ++ i :: back) (run : front.foldlM (migrate ram ambient) ready = some disk)
    (used : (ram.nodes i).used = true) (third : disk.NextInode 3)
    (asks : disk.Asks (ambient i).entry (CString.ofBytes (ram.nodes i).name)) :
    ({ ram, diskEnabled := false, disk := formatted } : FileSystem).enableDisk drive later ambient = none := by
  rw [Diskfs.format_eq working now] at format
  obtain ⟨_, rfl⟩ := Prod.mk.inj (Option.some.inj format)
  obtain ⟨fresh, again, early⟩ := early_mounted working now
  obtain ⟨_, rfl⟩ := Prod.mk.inj (again.symm.trans mount)
  rcases migrate_run (.inl early) run with still | ⟨rootSize, rootBlock, late⟩
  · have unset := third.2.2 2 (by decide)
    rw [still.free] at unset
    cases unset
  have leaves : migrate ram ambient disk i = none := by
    rw [migrate, if_pos used, late.create_leaves asks]
    rfl
  rw [enableDisk, Diskfs.init]
  dsimp only
  rw [mount]
  simp only [Option.bind_eq_bind, Option.bind_some, ↓reduceIte]
  rw [turns, List.foldlM_append, run]
  simp only [Option.bind_eq_bind, Option.bind_some, List.foldlM_cons, leaves, Option.bind_none]

end Migrating

/-- Paths made of `.` and `..` name the root directory. -/
def dotPath : CString := ⟨[slash, dot], by decide⟩
def dotsPath : CString := ⟨[slash, dot, dot], by decide⟩
def dotDotPath : CString := ⟨[slash, dot, slash, dot], by decide⟩
def dotsDotPath : CString := ⟨[slash, dot, dot, slash, dot], by decide⟩

theorem resolve_dotPath (fs : FileSystem) (enabled : fs.diskEnabled = true) :
    fs.resolveToDiskfsInode Ambient.zero.walked dotPath = walk Ambient.zero.walked 0 fs.disk 0 [[dot]] := by
  rw [resolveToDiskfsInode, if_neg (by simp [enabled])]
  rfl

theorem resolve_dotsPath (fs : FileSystem) (enabled : fs.diskEnabled = true) :
    fs.resolveToDiskfsInode Ambient.zero.walked dotsPath = walk Ambient.zero.walked 0 fs.disk 0 [[dot, dot]] := by
  rw [resolveToDiskfsInode, if_neg (by simp [enabled])]
  rfl

theorem resolve_dotDotPath (fs : FileSystem) (enabled : fs.diskEnabled = true) :
    fs.resolveToDiskfsInode Ambient.zero.walked dotDotPath = walk Ambient.zero.walked 0 fs.disk 0 [[dot], [dot]] := by
  rw [resolveToDiskfsInode, if_neg (by simp [enabled])]
  rfl

theorem resolve_dotsDotPath (fs : FileSystem) (enabled : fs.diskEnabled = true) :
    fs.resolveToDiskfsInode Ambient.zero.walked dotsDotPath = walk Ambient.zero.walked 0 fs.disk 0 [[dot, dot], [dot]] := by
  rw [resolveToDiskfsInode, if_neg (by simp [enabled])]
  rfl

/-- Below the second inode there is nothing. -/
theorem not_nested {drive : Byte} {rootSize rootBlock : Word} {disk mid last : Diskfs} {token : List Byte} {ino : Int}
    (late : disk.Late drive rootSize rootBlock) (nonempty : token.take (maxFilename - 1) ≠ [])
    (look : disk.lookup (Ambient.zero.walked 0) 0 (CString.ofBytes (token.take (maxFilename - 1))) = some (2, mid))
    (call : walk Ambient.zero.walked 0 disk 0 [token, [dot]] = some (ino, last)) : ino < 0 := by
  by_contra positive
  obtain ⟨found, next, again, deeper⟩ := walk_two nonempty (by decide) call (by omega)
  rw [look] at again
  obtain ⟨rfl, rfl⟩ := Prod.mk.inj (Option.some.inj again)
  obtain ⟨⟨transfers, rfl⟩, _⟩ := Diskfs.lookup_state late.toMounted (by decide) (by decide) look
  exact positive ((late.loaded 0 transfers).nested deeper)

/-- Whatever tree is in memory, `fs_enable_disk` does not bring it to a freshly
formatted drive: not all of the paths that name its root directory name a
directory on the disk. -/
theorem migration_incomplete {before formatted : Diskfs} {drive : Byte} {now later : Word} {ambient : Index → Ambient}
    {after : FileSystem} (run : Reachable RamFs.Step RamFs.init ram) (working : before.ata.Working drive)
    (format : before.format drive now = some (0, formatted))
    (enable : ({ ram, diskEnabled := false, disk := formatted } : FileSystem).enableDisk drive later ambient = some (0, after)) :
    ¬ Migrated ram after := by
  intro migrated
  have root : ram.Dir 0 := run.invariant (by decide) fun _ _ => root_dir_step
  obtain ⟨enabled, filling⟩ := enableDisk_filling working format enable
  obtain ⟨one, left, _, _, single, positive, _⟩ := migrated.dirs dotPath 0 rfl rfl root.2 Ambient.zero.walked
  obtain ⟨two, right, _, _, double, positive', _⟩ := migrated.dirs dotsPath 0 rfl rfl root.2 Ambient.zero.walked
  obtain ⟨three, _, _, _, nested, positive'', _⟩ := migrated.dirs dotDotPath 0 rfl rfl root.2 Ambient.zero.walked
  obtain ⟨four, _, _, _, nested', positive''', _⟩ := migrated.dirs dotsDotPath 0 rfl rfl root.2 Ambient.zero.walked
  rw [resolve_dotPath after enabled] at single
  rw [resolve_dotsPath after enabled] at double
  rw [resolve_dotDotPath after enabled] at nested
  rw [resolve_dotsDotPath after enabled] at nested'
  have here := walk_one (by decide) single positive
  have there := walk_one (by decide) double positive'
  obtain ⟨second, rootSize, rootBlock, late⟩ := filling.dots rfl rfl rfl here there positive positive'
  rcases second with rfl | rfl
  · exact absurd (not_nested late (by decide) here nested) (by omega)
  · exact absurd (not_nested late (by decide) there nested') (by omega)

/-- The path `/d/f`. -/
def nestedPath : CString := ⟨[slash, 100, slash, 102], by decide⟩

/-- A file with one byte in a directory. -/
def nestedFile : RamFs :=
  (((RamFs.init.createDir ⟨[slash, 100], by decide⟩).2.createFile nestedPath).2.write nestedPath (fun _ => 7) 1).2

theorem nestedFile_reachable : Reachable RamFs.Step RamFs.init nestedFile :=
  ((Relation.ReflTransGen.single ⟨.createDir ⟨[slash, 100], by decide⟩, trivial, _, rfl⟩).tail
    ⟨.createFile nestedPath, trivial, _, rfl⟩).tail ⟨.write nestedPath (fun _ => 7) 1, trivial, _, rfl⟩

theorem migration_incomplete_nested :
    ∃ after, ({ ram := nestedFile, diskEnabled := false, disk := (Diskfs.uniform 0).formatted 0 0 } : FileSystem).enableDisk 0 0
      (fun _ => Ambient.zero) = some (0, after) ∧ ¬ Migrated nestedFile after := by
  have check : (({ ram := nestedFile, diskEnabled := false, disk := (Diskfs.uniform 0).formatted 0 0 } :
      FileSystem).enableDisk 0 0 fun _ => Ambient.zero).any (fun enabled => decide (enabled.1 = 0)) = true := by
    decide +kernel
  obtain ⟨⟨ret, after⟩, enable, returned⟩ := (Option.any_eq_true _ _).mp check
  have zero : ret = 0 := of_decide_eq_true returned
  subst zero
  have working := Diskfs.uniform_working 0 0 (by decide)
  exact ⟨after, enable, migration_incomplete nestedFile_reachable working (Diskfs.format_eq working 0) enable⟩

/-- A file in a directory is not found any more. -/
theorem migration_loses_nested_file : ¬ ∀ ram, Reachable RamFs.Step RamFs.init ram →
    ∀ (before formatted : Diskfs) (drive : Byte) (now later : Word) (ambient : Index → Ambient) (after : FileSystem),
      before.ata.Working drive → before.format drive now = some (0, formatted) →
      ({ ram, diskEnabled := false, disk := formatted } : FileSystem).enableDisk drive later ambient = some (0, after) →
      Migrated ram after := by
  intro holds
  have check : (({ ram := nestedFile, diskEnabled := false, disk := (Diskfs.uniform 0).formatted 0 0 } :
      FileSystem).enableDisk 0 0 fun _ => Ambient.zero).any (fun enabled => decide (enabled.1 = 0) &&
        (enabled.2.read nestedPath Ambient.zero Bytes.zero 4096).any fun answer =>
          decide (answer.1 = FsError.notFound.code)) = true := by
    decide +kernel
  obtain ⟨⟨ret, after⟩, enable, check⟩ := (Option.any_eq_true _ _).mp check
  obtain ⟨returned, check⟩ := Bool.and_eq_true_iff.mp check
  obtain ⟨⟨answer, bytes, last⟩, read, missing⟩ := (Option.any_eq_true _ _).mp check
  have zero : ret = 0 := of_decide_eq_true returned
  have code : answer = FsError.notFound.code := of_decide_eq_true missing
  subst zero code
  have working := Diskfs.uniform_working 0 0 (by decide)
  have migrated := holds nestedFile nestedFile_reachable _ _ 0 0 0 _ after working (Diskfs.format_eq working 0) enable
  obtain ⟨result, later, again, _⟩ :=
    migrated.files nestedPath 2 rfl (by decide +kernel) (by decide +kernel) Ambient.zero Bytes.zero
  rw [read] at again
  have value := (Prod.mk.inj (Option.some.inj again)).1
  have negative := FsError.notFound.code_neg
  omega

end FileSystem

end MexOS.Fs
