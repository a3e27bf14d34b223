import MexOS.Fs.Consistent

/-! An inode that is changed in memory first: from `read_inode` over the blocks
it gets to `write_inode`. -/

namespace MexOS.Fs.Diskfs

open MexOS.Machine

section Changes

variable {fs : Diskfs} {drive : Byte} {ino : Nat} {inode other : Inode}

/-- Any record of the same file may be changed. -/
theorem Consistent.draft (consistent : Consistent fs drive) (file : SameFile (fs.onDisk drive ino) inode) :
    Draft fs drive ino inode := by
  refine ⟨consistent.toMounted, ?_, ?_⟩
  · intro i bound valid allocated _
    exact consistent.coherent i bound valid allocated (fun impossible => impossible)
  · have same (slot : Nat × Nat) (block : Nat)
        (here : fs.holds (Function.update (fs.onDisk drive) ino inode) slot = some block) :
        fs.holds (fs.onDisk drive) slot = some block := by
      obtain ⟨owner, index⟩ := slot
      rw [holds_eq_some] at here ⊢
      by_cases own : owner = ino
      · subst own
        rw [Function.update_self] at here
        rw [← file.block index here.2.1]
        exact here
      · rw [Function.update_of_ne own] at here
        exact here
    exact consistent.exclusive.restrict same fun slot block here => consistent.exclusive.taken (same slot block here)

/-- Fields other than the block pointers may change. -/
theorem Draft.change (draft : Draft fs drive ino inode)
    (blocks : ∀ index < directBlocks, other.block index = inode.block index) : Draft fs drive ino other := by
  refine ⟨draft.toMounted, draft.coherent, ?_⟩
  have same (slot : Nat × Nat) (block : Nat)
      (here : fs.holds (Function.update (fs.onDisk drive) ino other) slot = some block) :
      fs.holds (Function.update (fs.onDisk drive) ino inode) slot = some block := by
    obtain ⟨owner, index⟩ := slot
    rw [holds_eq_some] at here ⊢
    by_cases own : owner = ino
    · subst own
      rw [Function.update_self] at here ⊢
      rw [← blocks index here.2.1]
      exact here
    · rw [Function.update_of_ne own] at here ⊢
      exact here
  exact draft.exclusive.restrict same fun slot block here => draft.exclusive.taken (same slot block here)

/-- A pointer of the draft that is not zero. -/
theorem holds_own (allocated : fs.allocated ino) {index : Nat}
    (bound : index < directBlocks) (nonzero : inode.block index ≠ 0) :
    fs.holds (Function.update (fs.onDisk drive) ino inode) (ino, index) = some (inode.block index).toNat := by
  rw [holds_eq_some, Function.update_self]
  exact ⟨allocated, bound, nonzero, rfl⟩

theorem Draft.block_taken (draft : Draft fs drive ino inode) (allocated : fs.allocated ino) {index : Nat}
    (bound : index < directBlocks) (nonzero : inode.block index ≠ 0) : fs.taken (inode.block index).toNat :=
  draft.exclusive.taken (@holds_own fs drive ino inode allocated _ bound nonzero)

theorem Draft.blocks_distinct (draft : Draft fs drive ino inode) (allocated : fs.allocated ino) {first second : Nat}
    (firstBound : first < directBlocks) (secondBound : second < directBlocks) (nonzero : inode.block first ≠ 0)
    (same : inode.block first = inode.block second) : first = second := by
  have left := @holds_own fs drive ino inode allocated _ firstBound nonzero
  have right := @holds_own fs drive ino inode allocated _ secondBound (same ▸ nonzero)
  rw [← same] at right
  exact (Prod.mk.inj (draft.exclusive.once left right)).2

end Changes

section Blocks

variable {fs : Diskfs} {drive : Byte} {ino : Nat} {inode : Inode}

theorem setBlock_self (inode : Inode) (index : Nat) (value : Word) : (inode.setBlock index value).block index = value :=
  Bytes.word_setWord _ _ _

theorem setBlock_other {index other : Nat} (value : Word) (differ : other ≠ index) :
    (inode.setBlock index value).block other = inode.block other :=
  Bytes.word_setWord_of_apart (by omega)

theorem taken_blockTaken {block other : Nat} :
    (fs.blockTaken block).taken other ↔ other < maxBlocks ∧ (other = block ∨ fs.taken other) := by
  simp only [taken, blockTaken, Bitmap.test_set _ (by decide : 0 < 8), Bool.or_eq_true, decide_eq_true_eq]
  constructor
  · rintro ⟨bound, same | present⟩
    · exact ⟨bound, .inl same.symm⟩
    · exact ⟨bound, .inr ⟨bound, present⟩⟩
  · rintro ⟨bound, same | present⟩
    · exact ⟨bound, .inl same.symm⟩
    · exact ⟨bound, .inr present.2⟩

theorem Mounted.blockTaken (mounted : Mounted fs drive) (block : Nat) : Mounted (fs.blockTaken block) drive := by
  refine ⟨mounted.working, mounted.mounted, ?_, ?_, mounted.slots, mounted.unique⟩
  · rw [← mounted.totalInodes]
    exact Bytes.word_setWord_of_apart (by omega)
  · rw [← mounted.totalBlocks]
    exact Bytes.word_setWord_of_apart (by omega)

/-- A free block goes into a zero pointer of the draft. Block 0 is lost: the
pointer still reads as zero. -/
theorem Draft.blockTaken (draft : Draft fs drive ino inode) {index block : Nat} (small : block < maxBlocks)
    (free : fs.blockBitmap.test block = false) :
    Draft (fs.blockTaken block) drive ino (inode.setBlock index (BitVec.ofNat 32 block)) := by
  refine ⟨draft.toMounted.blockTaken block, draft.coherent, ?_⟩
  have fresh : ¬ fs.taken block := by
    intro present
    rw [present.2] at free
    cases free
  have value : (BitVec.ofNat 32 block).toNat = block := by
    rw [maxBlocks] at small
    rw [BitVec.toNat_ofNat]
    omega
  have assigned := draft.exclusive.assign (ino, index) fresh
  apply assigned.restrict
  · intro slot thing here
    obtain ⟨owner, place⟩ := slot
    rw [holds_eq_some] at here
    obtain ⟨allocated, bound, nonzero, same⟩ := here
    by_cases target : (owner, place) = (ino, index)
    · obtain ⟨own, position⟩ := Prod.mk.inj target
      subst own position
      rw [Function.update_self, setBlock_self, value] at same
      rw [Function.update_self, same]
    · rw [Function.update_of_ne target, holds_eq_some]
      by_cases own : owner = ino
      · subst own
        have differ : place ≠ index := fun position => target (by rw [position])
        rw [Function.update_self, setBlock_other _ differ] at nonzero same
        rw [Function.update_self]
        exact ⟨allocated, bound, nonzero, same⟩
      · rw [Function.update_of_ne own] at nonzero same ⊢
        exact ⟨allocated, bound, nonzero, same⟩
  · intro slot thing here
    obtain ⟨owner, place⟩ := slot
    rw [holds_eq_some] at here
    obtain ⟨allocated, bound, nonzero, same⟩ := here
    rw [taken_blockTaken]
    by_cases own : owner = ino
    · subst own
      rw [Function.update_self] at nonzero same
      by_cases position : place = index
      · subst position
        rw [setBlock_self, value] at same
        exact ⟨same ▸ small, .inl same.symm⟩
      · rw [setBlock_other _ position] at nonzero same
        have present := draft.block_taken allocated bound nonzero
        rw [same] at present
        exact ⟨present.1, .inr present⟩
    · rw [Function.update_of_ne own] at nonzero same
      have here : fs.holds (Function.update (fs.onDisk drive) ino inode) (owner, place) = some thing := by
        rw [holds_eq_some, Function.update_of_ne own]
        exact ⟨allocated, bound, nonzero, same⟩
      have present := draft.exclusive.taken here
      exact ⟨present.1, .inr present⟩

end Blocks

section Table

variable {fs after : Diskfs} {drive : Byte} {ino : Nat} {inode : Inode}

/-- The inode table, the cache and the bitmaps are the same. -/
structure SameTable (fs after : Diskfs) (drive : Byte) : Prop where
  inodeCache : after.inodeCache = fs.inodeCache
  inodeCacheNum : after.inodeCacheNum = fs.inodeCacheNum
  inodeCacheValid : after.inodeCacheValid = fs.inodeCacheValid
  inodeBitmap : after.inodeBitmap = fs.inodeBitmap
  blockBitmap : after.blockBitmap = fs.blockBitmap
  table : ∀ other < maxInodes, after.onDisk drive other = fs.onDisk drive other

namespace SameTable

theorem allocated (same : SameTable fs after drive) (ino : Nat) : after.allocated ino ↔ fs.allocated ino := by
  rw [Diskfs.allocated, Diskfs.allocated, same.inodeBitmap]

theorem coherent (same : SameTable fs after drive) {skip : Nat → Prop} (coherent : fs.Coherent drive skip) :
    after.Coherent drive skip := by
  intro i bound valid allocated kept
  rw [same.inodeCacheValid] at valid
  rw [same.inodeCacheNum] at allocated kept ⊢
  rw [same.allocated] at allocated
  rw [same.inodeCache, same.table _ allocated.1]
  exact coherent i bound valid allocated kept

theorem exclusive (same : SameTable fs after drive) {records others : Nat → Inode}
    (exclusive : Exclusive (fs.holds records) fs.taken)
    (agree : ∀ ino, fs.allocated ino → others ino = records ino) : Exclusive (after.holds others) after.taken := by
  have kept (slot : Nat × Nat) (block : Nat) (here : after.holds others slot = some block) :
      fs.holds records slot = some block := by
    obtain ⟨owner, index⟩ := slot
    rw [holds_eq_some, same.allocated] at here
    rw [holds_eq_some, ← agree owner here.1]
    exact here
  apply exclusive.restrict kept
  intro slot block here
  have present := exclusive.taken (kept slot block here)
  rw [taken, same.blockBitmap]
  exact present

end SameTable

theorem Consistent.of_table (consistent : Consistent fs drive) (mounted : Mounted after drive)
    (same : SameTable fs after drive) : Consistent after drive :=
  ⟨mounted, same.coherent consistent.coherent,
    same.exclusive consistent.exclusive fun ino allocated => same.table ino allocated.1⟩

theorem Draft.of_table (draft : Draft fs drive ino inode) (mounted : Mounted after drive)
    (same : SameTable fs after drive) : Draft after drive ino inode := by
  refine ⟨mounted, same.coherent draft.coherent, same.exclusive draft.exclusive ?_⟩
  intro other allocated
  by_cases own : other = ino
  · rw [own, Function.update_self, Function.update_self]
  · rw [Function.update_of_ne own, Function.update_of_ne own, same.table other allocated.1]

/-- One data block is overwritten. -/
def blockStored (fs : Diskfs) (drive : Byte) (block : Word) (content : Bytes) : Diskfs :=
  { fs with ata := fs.ata.store drive (dataStart + block) 1 content }

theorem sectorOf_data {block : Word} (small : block.toNat < maxBlocks) :
    Ata.sectorOf (dataStart + block) = 545 + block.toNat := by
  have first : (545 : Word).toNat = 545 := rfl
  rw [maxBlocks] at small
  rw [Ata.sectorOf, dataStart, BitVec.toNat_add, first]
  omega

theorem blockStored_self (fs : Diskfs) (drive : Byte) {block : Word} (small : block.toNat < maxBlocks) (content : Bytes) :
    (fs.blockStored drive block content).ata.sectors drive (545 + block.toNat) = content := by
  rw [blockStored, ← sectorOf_data small, Ata.store_one_self]

theorem blockStored_other (fs : Diskfs) (drive : Byte) {block : Word} (small : block.toNat < maxBlocks) (content : Bytes)
    {sector : Nat} (other : sector ≠ 545 + block.toNat) :
    (fs.blockStored drive block content).ata.sectors drive sector = fs.ata.sectors drive sector := by
  have place := sectorOf_data small
  rw [blockStored, Ata.store_outside _ _ _ _ _ (by omega)]

theorem Mounted.blockStored (mounted : Mounted fs drive) (block : Word) (content : Bytes) :
    Mounted (fs.blockStored drive block content) drive :=
  ⟨mounted.working.store _ _ _, mounted.mounted, mounted.totalInodes, mounted.totalBlocks, mounted.slots,
    mounted.unique⟩

theorem Draft.blockStored (draft : Draft fs drive ino inode) {block : Word} (small : block.toNat < maxBlocks)
    (content : Bytes) : Draft (fs.blockStored drive block content) drive ino inode := by
  refine draft.of_table (draft.toMounted.blockStored block content) ⟨rfl, rfl, rfl, rfl, rfl, ?_⟩
  intro other valid
  rw [maxInodes] at valid
  funext place
  rw [onDisk, blockStored_other fs drive small content (by omega)]
  rfl

end Table

section Commit

variable {fs : Diskfs} {drive : Byte} {ino : Word} {inode : Inode}

/-- `write_inode` keeps every other file, when the record ends with the size
of the next inode. -/
theorem inodeWritten_sameFile (valid : ino.toNat < maxInodes) (slot : ino.toNat % 4 ≠ 3) {other : Nat}
    (differ : other ≠ ino.toNat)
    (tail : other = ino.toNat + 1 → inode.word 132 = (fs.onDisk drive other).size) :
    SameFile (fs.onDisk drive other) ((fs.inodeWritten drive ino inode).onDisk drive other) := by
  constructor
  · by_cases next : other = ino.toNat + 1
    · rw [← tail next]
      have byte (lane : Nat) (small : lane < 4) :
          (fs.inodeWritten drive ino inode).onDisk drive other (4 + lane) = inode (132 + lane) := by
        rw [onDisk_inodeWritten_other valid slot inode differ (by omega), if_pos ⟨next, by omega⟩, ← Nat.add_assoc]
      simp only [Inode.size, Bytes.word]
      rw [byte 3 (by decide), byte 2 (by decide), byte 1 (by decide)]
      exact congrArg _ (byte 0 (by decide))
    · apply Bytes.Same.word _ (Nat.le_refl 4) (Nat.le_refl 8)
      intro place _ upper
      rw [onDisk_inodeWritten_other valid slot inode differ (by omega), if_neg (fun both => next both.1)]
  · intro index bound
    rw [directBlocks] at bound
    apply Bytes.Same.word _ (by omega : 8 ≤ 8 + 4 * index) (by omega : 8 + 4 * index + 4 ≤ 56)
    intro place lower upper
    rw [onDisk_inodeWritten_other valid slot inode differ (by omega), if_neg (by omega)]

theorem Mounted.inodeWritten (mounted : Mounted fs drive) (ino : Word) (inode : Inode) :
    Mounted (fs.inodeWritten drive ino inode) drive :=
  ⟨(mounted.working.tick.store _ _ _).tick, mounted.mounted, mounted.totalInodes, mounted.totalBlocks, mounted.slots,
    mounted.unique⟩

/-- Writing the draft makes the state consistent. -/
theorem Draft.commit (draft : Draft fs drive ino.toNat inode) (valid : ino.toNat < maxInodes)
    (slot : ino.toNat % 4 ≠ 3)
    (tail : fs.allocated (ino.toNat + 1) → inode.word 132 = (fs.onDisk drive (ino.toNat + 1)).size) :
    Consistent (fs.inodeWritten drive ino inode) drive := by
  have own : SameFile inode ((fs.inodeWritten drive ino inode).onDisk drive ino.toNat) :=
    SameFile.of_bytes ((onDisk_inodeWritten_self valid inode).narrow (by decide) (by decide))
  have others (other : Nat) (allocated : fs.allocated other) (differ : other ≠ ino.toNat) :
      SameFile (fs.onDisk drive other) ((fs.inodeWritten drive ino inode).onDisk drive other) := by
    apply inodeWritten_sameFile valid slot differ
    intro next
    subst next
    exact tail allocated
  refine ⟨draft.toMounted.inodeWritten ino inode, ?_, ?_⟩
  · intro i bound present allocated _
    by_cases same : fs.inodeCacheNum i = ino
    · have hit := draft.toMounted.cached_eq bound present
      rw [same] at hit
      have copy : (fs.inodeWritten drive ino inode).inodeCache i = inode := by
        simp only [Diskfs.inodeWritten, hit, Function.update_self]
      have number : (fs.inodeWritten drive ino inode).inodeCacheNum i = ino := same
      rw [copy, number]
      exact own.symm
    · have differ : (fs.inodeCacheNum i).toNat ≠ ino.toNat := fun equal => same (BitVec.eq_of_toNat_eq equal)
      have copy : (fs.inodeWritten drive ino inode).inodeCache i = fs.inodeCache i := by
        cases hit : fs.cached ino with
        | none => simp only [Diskfs.inodeWritten, hit]
        | some j =>
          have apart : i ≠ j := by
            intro equal
            rw [equal] at same
            exact same (of_cached hit).2.2
          simp only [Diskfs.inodeWritten, hit]
          exact Function.update_of_ne apart _ _
      rw [copy]
      exact (others _ allocated differ).symm.trans (draft.coherent i bound present allocated differ)
  · have kept (place : Nat × Nat) (block : Nat)
        (here : (fs.inodeWritten drive ino inode).holds ((fs.inodeWritten drive ino inode).onDisk drive) place =
          some block) :
        fs.holds (Function.update (fs.onDisk drive) ino.toNat inode) place = some block := by
      obtain ⟨owner, index⟩ := place
      rw [holds_eq_some] at here ⊢
      by_cases same : owner = ino.toNat
      · subst same
        rw [own.block index here.2.1] at here
        rw [Function.update_self]
        exact here
      · rw [(others owner here.1 same).block index here.2.1] at here
        rw [Function.update_of_ne same]
        exact here
    exact draft.exclusive.restrict kept fun place block here => draft.exclusive.taken (kept place block here)

end Commit

end MexOS.Fs.Diskfs
