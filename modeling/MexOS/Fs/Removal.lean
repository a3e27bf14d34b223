import MexOS.Fs.Names

/-! `diskfs_delete` keeps the state consistent. -/

namespace MexOS.Fs.Diskfs

open MexOS.Machine

/-- Blocks and inodes are given back; nothing else changes. -/
structure Released (fs after : Diskfs) : Prop where
  ata : after.ata = fs.ata
  mountedDrive : after.mountedDrive = fs.mountedDrive
  inodeCache : after.inodeCache = fs.inodeCache
  inodeCacheNum : after.inodeCacheNum = fs.inodeCacheNum
  inodeCacheValid : after.inodeCacheValid = fs.inodeCacheValid
  totalInodes : after.superblock.totalInodes = fs.superblock.totalInodes
  totalBlocks : after.superblock.totalBlocks = fs.superblock.totalBlocks

namespace Released

variable {fs mid after : Diskfs}

theorem refl (fs : Diskfs) : Released fs fs := ⟨rfl, rfl, rfl, rfl, rfl, rfl, rfl⟩

theorem trans (left : Released fs mid) (right : Released mid after) : Released fs after :=
  ⟨right.ata.trans left.ata, right.mountedDrive.trans left.mountedDrive, right.inodeCache.trans left.inodeCache,
    right.inodeCacheNum.trans left.inodeCacheNum, right.inodeCacheValid.trans left.inodeCacheValid,
    right.totalInodes.trans left.totalInodes, right.totalBlocks.trans left.totalBlocks⟩

theorem onDisk (released : Released fs after) (drive : Byte) : after.onDisk drive = fs.onDisk drive := by
  funext ino place
  rw [Diskfs.onDisk, Diskfs.onDisk, released.ata]

theorem record (released : Released fs after) (drive : Byte) (ino : Word) :
    after.record drive ino = fs.record drive ino := by
  simp only [Diskfs.record, cached, released.inodeCacheValid, released.inodeCacheNum, released.inodeCache, released.ata]

end Released

section Blocks

variable {fs : Diskfs} {drive : Byte} {inode : Inode}

theorem blockFreed_released (fs : Diskfs) (block : Nat) : Released fs (fs.blockFreed block) :=
  ⟨rfl, rfl, rfl, rfl, rfl, Bytes.word_setWord_of_apart (by omega), Bytes.word_setWord_of_apart (by omega)⟩

theorem inodeFreed_released (fs : Diskfs) (ino : Nat) : Released fs (fs.inodeFreed ino) :=
  ⟨rfl, rfl, rfl, rfl, rfl, Bytes.word_setWord_of_apart (by omega), Bytes.word_setWord_of_apart (by omega)⟩

theorem test_blockFreed (fs : Diskfs) (block other : Nat) :
    (fs.blockFreed block).blockBitmap.test other = true ↔ fs.blockBitmap.test other = true ∧ block ≠ other := by
  rw [blockFreed, Bitmap.test_clear _ (by decide)]
  simp only [Bool.and_eq_true, Bool.not_eq_true', decide_eq_false_iff_not]
  exact and_comm

theorem allocated_inodeFreed (fs : Diskfs) (ino other : Nat) :
    (fs.inodeFreed ino).allocated other ↔ fs.allocated other ∧ other ≠ ino := by
  simp only [allocated, inodeFreed, Bitmap.test_clear _ (by decide : 0 < 8), Bool.and_eq_true, Bool.not_eq_true',
    decide_eq_false_iff_not]
  constructor
  · rintro ⟨bound, differ, present⟩
    exact ⟨⟨bound, present⟩, fun same => differ same.symm⟩
  · rintro ⟨⟨bound, present⟩, differ⟩
    exact ⟨bound, fun same => differ same.symm, present⟩

/-- The loop of `diskfs_delete` over the block pointers. -/
theorem freeBlocks_spec (totals : fs.superblock.totalBlocks = 65536) (indices : List Nat)
    (small : ∀ index ∈ indices, inode.block index ≠ 0 → (inode.block index).toNat < maxBlocks) :
    ∃ after, indices.foldlM (fun fs i => if inode.block i ≠ 0 then freeBlock fs (inode.block i) else some fs) fs =
        some after ∧ Released fs after ∧ after.inodeBitmap = fs.inodeBitmap ∧
      ∀ other, after.blockBitmap.test other = true ↔ fs.blockBitmap.test other = true ∧
        ∀ index ∈ indices, inode.block index ≠ 0 → (inode.block index).toNat ≠ other := by
  induction indices generalizing fs with
  | nil => exact ⟨fs, rfl, .refl fs, rfl, by simp⟩
  | cons index rest ih =>
    have tail : ∀ other ∈ rest, inode.block other ≠ 0 → (inode.block other).toNat < maxBlocks :=
      fun other member => small other (List.mem_cons_of_mem _ member)
    by_cases zero : inode.block index = 0
    · obtain ⟨after, call, released, bitmap, tests⟩ := ih totals tail
      refine ⟨after, ?_, released, bitmap, ?_⟩
      · rw [List.foldlM_cons, if_neg (not_not.mpr zero)]
        exact call
      · intro other
        rw [tests other, List.forall_mem_cons]
        constructor
        · intro ⟨present, apart⟩
          exact ⟨present, fun nonzero => absurd zero nonzero, apart⟩
        · intro ⟨present, _, apart⟩
          exact ⟨present, apart⟩
    · have released := blockFreed_released fs (inode.block index).toNat
      obtain ⟨after, call, later, bitmap, tests⟩ := ih (released.totalBlocks.trans totals) tail
      refine ⟨after, ?_, released.trans later, bitmap, ?_⟩
      · rw [List.foldlM_cons, if_pos zero, freeBlock_eq totals (small index List.mem_cons_self zero)]
        exact call
      · intro other
        rw [tests other, test_blockFreed, List.forall_mem_cons]
        constructor
        · intro ⟨⟨present, here⟩, apart⟩
          exact ⟨present, fun _ => here, apart⟩
        · intro ⟨present, here, apart⟩
          exact ⟨⟨present, here zero⟩, apart⟩

/-- An inode goes together with its blocks. -/
theorem Consistent.removed (consistent : Consistent fs drive) {ino : Word} (allocated : fs.allocated ino.toNat)
    (file : SameFile (fs.onDisk drive ino.toNat) inode) :
    ∃ mid after, fs.freeBlocks inode = some mid ∧ mid.freeInode ino = some after ∧ Released fs after ∧
      (∀ other, after.allocated other ↔ fs.allocated other ∧ other ≠ ino.toNat) ∧ Consistent after drive := by
  have own (index : Nat) (bound : index < directBlocks) (nonzero : inode.block index ≠ 0) :
      fs.holds (fs.onDisk drive) (ino.toNat, index) = some (inode.block index).toNat := by
    rw [file.block index bound] at nonzero ⊢
    exact holds_eq_some.mpr ⟨allocated, bound, nonzero, rfl⟩
  obtain ⟨mid, blocks, midReleased, midBitmap, tests⟩ := @freeBlocks_spec fs inode consistent.totalBlocks
    (List.range directBlocks) (fun index member nonzero =>
      (consistent.exclusive.taken (own index (List.mem_range.mp member) nonzero)).1)
  have released := midReleased.trans (inodeFreed_released mid ino.toNat)
  have allocated_iff (other : Nat) : (mid.inodeFreed ino.toNat).allocated other ↔ fs.allocated other ∧ other ≠ ino.toNat := by
    rw [allocated_inodeFreed, Diskfs.allocated, midBitmap]
    rfl
  refine ⟨mid, mid.inodeFreed ino.toNat, blocks,
    freeInode_eq (midReleased.totalInodes.trans consistent.totalInodes) allocated.1, released, allocated_iff,
    ⟨?_, ?_, ?_, ?_, ?_, ?_⟩, ?_, ?_⟩
  · rw [released.ata]
    exact consistent.working
  · exact released.mountedDrive.trans consistent.mounted
  · exact released.totalInodes.trans consistent.totalInodes
  · exact released.totalBlocks.trans consistent.totalBlocks
  · intro other still
    exact consistent.slots other ((allocated_iff other).mp still).1
  · rw [released.inodeCacheValid, released.inodeCacheNum]
    exact consistent.unique
  · intro i bound present still kept
    rw [released.inodeCacheValid] at present
    rw [released.inodeCacheNum] at still ⊢
    rw [released.onDisk, released.inodeCache]
    exact consistent.coherent i bound present ((allocated_iff _).mp still).1 kept
  · have kept (place : Nat × Nat) (block : Nat) (here : (mid.inodeFreed ino.toNat).holds ((mid.inodeFreed ino.toNat).onDisk drive) place = some block) :
        fs.holds (fs.onDisk drive) place = some block ∧ place.1 ≠ ino.toNat := by
      obtain ⟨owner, index⟩ := place
      rw [released.onDisk] at here
      obtain ⟨still, rest⟩ := holds_eq_some.mp here
      obtain ⟨before, differ⟩ := (allocated_iff owner).mp still
      exact ⟨holds_eq_some.mpr ⟨before, rest⟩, differ⟩
    apply consistent.exclusive.restrict (fun place block here => (kept place block here).1)
    intro place block here
    obtain ⟨held, differ⟩ := kept place block here
    have present := consistent.exclusive.taken held
    refine ⟨present.1, (tests block).mpr ⟨present.2, ?_⟩⟩
    intro index member nonzero same
    have mine := own index (List.mem_range.mp member) nonzero
    rw [same] at mine
    have slot := consistent.exclusive.once held mine
    rw [slot] at differ
    exact differ rfl

end Blocks

section Delete

variable {fs : Diskfs} {drive : Byte} {parentIno : Word}

theorem clearLoop_consistent (consistent : Consistent fs drive) (parent : fs.allocated parentIno.toNat)
    (synced : fs.Synced drive parentIno) (loaded : fs.inodeLoaded drive parentIno = fs) {scrap : Nat → Dirent}
    {ino now : Word} {turns i : Nat} {after : Diskfs} (call : clearLoop scrap parentIno ino now turns fs i = some after) :
    Consistent after drive := by
  induction turns generalizing fs i with
  | zero =>
    rw [← Option.some.inj call]
    exact consistent
  | succ turns ih =>
    rw [clearLoop] at call
    obtain ⟨⟨ret, entry, mid⟩, read, call⟩ := Option.bind_eq_some_iff.mp call
    obtain ⟨transfers, same⟩ := read_of_loaded consistent.toMounted parent.1 (consistent.slots _ parent) loaded read
    subst same
    simp only at call
    split at call
    · obtain ⟨count, last, write, _, written⟩ := @write_spec (fs.retime transfers) drive parentIno
        (consistent.retime transfers) parent synced (entry.setWord 0 0) (BitVec.ofNat 32 (i * Dirent.bytes))
        (BitVec.ofNat 32 Dirent.bytes) now
      rw [write] at call
      rw [← Option.some.inj call]
      exact written.consistent
    · have still : (fs.retime transfers).inodeLoaded drive parentIno = fs.retime transfers := by
        rw [retime_inodeLoaded, loaded]
      exact ih (consistent.retime transfers) parent synced still call

theorem deleteInode_consistent (consistent : Consistent fs drive) (parent : fs.allocated parentIno.toNat) {ino : Word}
    {inode : Inode} (allocated : fs.allocated ino.toNat) (file : SameFile (fs.onDisk drive ino.toNat) inode)
    (other : parentIno.toNat ≠ ino.toNat) (synced : parentIno.toNat + 1 = ino.toNat ∨ fs.Synced drive parentIno)
    {scrap : Nat → Dirent} {now : Word} {result : Int} {after : Diskfs}
    (call : fs.deleteInode scrap parentIno ino inode now = some (result, after)) : Consistent after drive := by
  obtain ⟨mid, removed, blocks, inodes, released, allocated_iff, removedConsistent⟩ := consistent.removed allocated file
  have removedParent : removed.allocated parentIno.toNat := (allocated_iff _).mpr ⟨parent, other⟩
  have slot := consistent.slots _ parent
  have mounted := removedConsistent.toMounted
  have removedSynced : removed.Synced drive parentIno := by
    intro next
    obtain ⟨before, differ⟩ := (allocated_iff _).mp next
    rw [released.record, released.onDisk]
    rcases synced with follows | synced
    · exact absurd follows differ
    · exact synced before
  obtain ⟨first, load⟩ := readInode_eq mounted parent.1 slot
  have loaded := inodeLoaded_cacheOnly removed drive parentIno
  rw [deleteInode, blocks] at call
  simp only [Option.bind_eq_bind, Option.bind_some] at call
  rw [inodes] at call
  simp only [Option.bind_some] at call
  rw [mounted.mounted, load] at call
  simp only [Option.bind_some] at call
  obtain ⟨cleared, clear, call⟩ := Option.bind_eq_some_iff.mp call
  have twice : ((removed.inodeLoaded drive parentIno).retime first).inodeLoaded drive parentIno =
      (removed.inodeLoaded drive parentIno).retime first := by
    rw [retime_inodeLoaded, mounted.inodeLoaded_twice]
  have clearedConsistent := @clearLoop_consistent ((removed.inodeLoaded drive parentIno).retime first) drive parentIno
    ((removedConsistent.inodeLoaded parentIno).retime first) ((loaded.allocated _).mpr removedParent)
    (removedSynced.inodeLoaded mounted parent.1 slot parentIno) twice _ _ _ _ _ _ clear
  rw [← (Prod.mk.inj (Option.some.inj call)).2]
  exact clearedConsistent.sync

/-- When `diskfs_delete` keeps the files: it gives up early, or directory and
file are allocated and the record of the directory is in step. -/
def DeleteFits (fs : Diskfs) (drive : Byte) (junk : Nat → Dirent) (parentIno : Word) (name : CString) : Prop :=
  maxInodes ≤ parentIno.toNat ∨
    parentIno.toNat % 4 ≠ 3 ∧ (fs.record drive parentIno).type ≠ typeDir ∨
    fs.allocated parentIno.toNat ∧ ∀ found after, fs.lookup junk parentIno name = some (found, after) → 0 ≤ found →
      maxInodes ≤ (BitVec.ofInt 32 found).toNat ∨
      (BitVec.ofInt 32 found).toNat % 4 ≠ 3 ∧ (after.record drive (BitVec.ofInt 32 found)).type = typeDir ∧
        (after.record drive (BitVec.ofInt 32 found)).size > 0 ∨
      fs.allocated (BitVec.ofInt 32 found).toNat ∧
        (parentIno.toNat + 1 = (BitVec.ofInt 32 found).toNat ∨ fs.Synced drive parentIno)

theorem delete_consistent (consistent : Consistent fs drive) {junk scrap : Nat → Dirent} {name : CString}
    (fits : fs.DeleteFits drive junk parentIno name) {now : Word} {result : Int} {after : Diskfs}
    (call : fs.delete junk scrap parentIno name now = some (result, after)) : Consistent after drive := by
  have mounted := consistent.toMounted
  rw [delete, if_neg mounted.drive_ne] at call
  obtain ⟨⟨found, mid⟩, look, call⟩ := Option.bind_eq_some_iff.mp call
  simp only at call
  by_cases beyond : maxInodes ≤ parentIno.toNat
  · rw [lookup, if_neg mounted.drive_ne, readInode, if_pos beyond] at look
    simp only [Option.bind_eq_bind, Option.bind_some] at look
    obtain ⟨missing, same⟩ := Prod.mk.inj (Option.some.inj look)
    rw [if_pos (by omega)] at call
    rw [← (Prod.mk.inj (Option.some.inj call)).2, ← same]
    exact consistent
  have valid : parentIno.toNat < maxInodes := by omega
  have slot : parentIno.toNat % 4 ≠ 3 := by
    rcases fits with impossible | ⟨slot, _⟩ | ⟨parent, _⟩
    · exact absurd impossible beyond
    · exact slot
    · exact consistent.slots _ parent
  obtain ⟨⟨transfers, same⟩, directory⟩ := lookup_state mounted valid slot look
  have midConsistent : Consistent mid drive := by
    rw [same]
    exact (consistent.inodeLoaded parentIno).retime transfers
  by_cases missing : found < 0
  · rw [if_pos missing] at call
    rw [← (Prod.mk.inj (Option.some.inj call)).2]
    exact midConsistent
  rw [if_neg missing, midConsistent.mounted] at call
  obtain ⟨isDir, nonempty⟩ := directory (by omega)
  rcases fits with impossible | ⟨_, impossible⟩ | ⟨parent, fits⟩
  · exact absurd impossible beyond
  · exact absurd isDir impossible
  have condition := fits found mid look (by omega)
  generalize BitVec.ofInt 32 found = ino at call condition
  by_cases outside : maxInodes ≤ ino.toNat
  · rw [readInode, if_pos outside] at call
    simp only [Option.bind_eq_bind, Option.bind_some] at call
    rw [← (Prod.mk.inj (Option.some.inj call)).2]
    exact midConsistent
  have inside : ino.toNat < maxInodes := by omega
  have inoSlot : ino.toNat % 4 ≠ 3 := by
    rcases condition with impossible | ⟨slot, _⟩ | ⟨allocated, _⟩
    · exact absurd impossible outside
    · exact slot
    · exact consistent.slots _ allocated
  obtain ⟨second, load⟩ := readInode_eq midConsistent.toMounted inside inoSlot
  rw [load] at call
  simp only [Option.bind_eq_bind, Option.bind_some] at call
  have lastConsistent := (midConsistent.inodeLoaded ino).retime second
  by_cases refused : (mid.record drive ino).type = typeDir ∧ (mid.record drive ino).size > 0
  · rw [if_pos refused] at call
    rw [← (Prod.mk.inj (Option.some.inj call)).2]
    exact lastConsistent
  rw [if_neg refused] at call
  rcases condition with impossible | ⟨_, impossible⟩ | ⟨allocated, synced⟩
  · exact absurd impossible outside
  · exact absurd impossible refused
  have loaded := inodeLoaded_cacheOnly fs drive parentIno
  have again := inodeLoaded_cacheOnly mid drive ino
  have midAllocated (number : Nat) (before : fs.allocated number) : mid.allocated number := by
    rw [same]
    exact (loaded.allocated number).mpr before
  -- The directory itself cannot be meant: it has an entry, so the call would have refused.
  have other : parentIno.toNat ≠ ino.toNat := by
    intro equal
    have self := BitVec.eq_of_toNat_eq equal
    subst self
    apply refused
    have copy : mid.record drive parentIno = fs.record drive parentIno := by
      rw [same]
      exact mounted.record_inodeLoaded parentIno
    rw [copy]
    exact ⟨isDir, nonempty⟩
  have lastSynced : parentIno.toNat + 1 = ino.toNat ∨
      ((mid.inodeLoaded drive ino).retime second).Synced drive parentIno := by
    rcases synced with follows | synced
    · exact .inl follows
    · right
      have midSynced : mid.Synced drive parentIno := by
        rw [same]
        exact synced.inodeLoaded mounted valid slot parentIno
      exact midSynced.inodeLoaded midConsistent.toMounted valid slot ino
  have file : SameFile (((mid.inodeLoaded drive ino).retime second).onDisk drive ino.toNat) (mid.record drive ino) := by
    have table : ((mid.inodeLoaded drive ino).retime second).onDisk drive = mid.onDisk drive := again.onDisk drive
    rw [table]
    exact midConsistent.record_sameFile (midAllocated _ allocated)
  exact deleteInode_consistent lastConsistent ((again.allocated _).mpr (midAllocated _ parent))
    ((again.allocated _).mpr (midAllocated _ allocated)) file other lastSynced call

end Delete

end MexOS.Fs.Diskfs
