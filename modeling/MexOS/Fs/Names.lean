import MexOS.Fs.WriteCall

/-! The calls that work on directory entries: `diskfs_lookup` changes the cache
alone, `diskfs_create` and `diskfs_delete` keep the state consistent. -/

namespace MexOS.Fs.Diskfs

open MexOS.Machine

section Sync

variable {fs : Diskfs} {drive : Byte}

/-- `diskfs_sync` stores to the sectors in front of the inode table. -/
theorem sync_spec (mounted : Mounted fs drive) :
    ∃ ata, fs.sync.2 = { fs with ata } ∧ ata.Working drive ∧
      ∀ sector, 33 ≤ sector → ata.sectors drive sector = fs.ata.sectors drive sector := by
  have one : (1 : Nat) ≠ 0 := by decide
  have sixteen : (16 : Nat) ≠ 0 := by decide
  have same := mounted.mounted
  subst same
  have first := (mounted.working.store 0 1 fs.superblock).tick
  have second := (first.store 1 16 fs.inodeBitmap).tick
  refine ⟨_, ?_, (second.store 17 16 fs.blockBitmap).tick, ?_⟩
  · rw [sync, if_neg mounted.drive_ne]
    simp only [writeSuperblock, writeBitmaps, mounted.working.writeSectors one, first.writeSectors sixteen,
      second.writeSectors sixteen, ne_eq, not_true_eq_false, ↓reduceIte]
  · intro sector high
    rw [Ata.tick_sectors, Ata.store_outside _ _ _ _ _ (.inr high), Ata.tick_sectors,
      Ata.store_outside _ _ _ _ _ (.inr (Nat.le_trans (by decide) high)), Ata.tick_sectors,
      Ata.store_outside _ _ _ _ _ (.inr (Nat.le_trans (by decide) high))]

theorem Mounted.sync (mounted : Mounted fs drive) : Mounted fs.sync.2 drive := by
  obtain ⟨ata, result, working, _⟩ := sync_spec mounted
  rw [result]
  exact ⟨working, mounted.mounted, mounted.totalInodes, mounted.totalBlocks, mounted.slots, mounted.unique⟩

theorem Consistent.sync (consistent : Consistent fs drive) : Consistent fs.sync.2 drive := by
  have mounted := consistent.toMounted.sync
  obtain ⟨ata, result, _, same⟩ := sync_spec consistent.toMounted
  rw [result] at mounted ⊢
  refine consistent.of_table mounted ⟨rfl, rfl, rfl, rfl, rfl, ?_⟩
  intro other _
  funext place
  rw [onDisk, same _ (by omega)]
  rfl

end Sync

section Lookup

variable {fs after : Diskfs} {drive : Byte} {ino : Word}

theorem retime_inodeLoaded (fs : Diskfs) (drive : Byte) (ino : Word) (transfers : Nat) :
    (fs.retime transfers).inodeLoaded drive ino = (fs.inodeLoaded drive ino).retime transfers := by
  have same : (fs.retime transfers).cached ino = fs.cached ino := rfl
  rw [inodeLoaded, inodeLoaded, same]
  cases fs.cached ino <;> rfl

/-- A read of an inode that is in the cache changes nothing but the clock. -/
theorem read_of_loaded (mounted : Mounted fs drive) (valid : ino.toNat < maxInodes) (slot : ino.toNat % 4 ≠ 3)
    (loaded : fs.inodeLoaded drive ino = fs) {buffer entry : Bytes} {offset size : Word} {ret : Int}
    (call : fs.read ino buffer offset size = some (ret, entry, after)) : ∃ transfers, after = fs.retime transfers := by
  obtain ⟨transfers, read⟩ := read_eq mounted valid slot buffer offset size
  rw [call, loaded] at read
  obtain ⟨result, _, same⟩ := Option.map_eq_some_iff.mp read.symm
  refine ⟨transfers, ?_⟩
  exact (Prod.mk.inj (Prod.mk.inj same).2).2.symm

theorem lookupLoop_state (mounted : Mounted fs drive) (valid : ino.toNat < maxInodes) (slot : ino.toNat % 4 ≠ 3)
    (loaded : fs.inodeLoaded drive ino = fs) {junk : Nat → Dirent} {name : CString} {turns i : Nat} {found : Int}
    (call : lookupLoop junk ino name turns fs i = some (found, after)) : ∃ transfers, after = fs.retime transfers := by
  induction turns generalizing fs i with
  | zero =>
    obtain ⟨_, same⟩ := Prod.mk.inj (Option.some.inj call)
    exact ⟨fs.ata.transfers, same.symm⟩
  | succ turns ih =>
    rw [lookupLoop] at call
    obtain ⟨⟨ret, entry, mid⟩, read, call⟩ := Option.bind_eq_some_iff.mp call
    obtain ⟨transfers, same⟩ := read_of_loaded mounted valid slot loaded read
    have midLoaded : mid.inodeLoaded drive ino = mid := by
      rw [same, retime_inodeLoaded, loaded]
    have rest {next : Nat} (later : lookupLoop junk ino name turns mid next = some (found, after)) :
        ∃ transfers, after = fs.retime transfers := by
      obtain ⟨count, last⟩ := ih (same ▸ mounted.retime transfers) midLoaded later
      refine ⟨count, ?_⟩
      rw [last, same]
      rfl
    have here {value : Int} (returned : some (value, mid) = some (found, after)) :
        ∃ transfers, after = fs.retime transfers := by
      rw [← (Prod.mk.inj (Option.some.inj returned)).2]
      exact ⟨transfers, same⟩
    simp only at call
    split at call
    · exact here call
    split at call
    · exact rest call
    · obtain ⟨equal, _, call⟩ := Option.bind_eq_some_iff.mp call
      split at call
      · exact here call
      · exact rest call

/-- What `diskfs_lookup` leaves; it finds an entry only in a directory that
is not empty. -/
theorem lookup_state (mounted : Mounted fs drive) (valid : ino.toNat < maxInodes) (slot : ino.toNat % 4 ≠ 3)
    {junk : Nat → Dirent} {name : CString} {found : Int} (call : fs.lookup junk ino name = some (found, after)) :
    (∃ transfers, after = (fs.inodeLoaded drive ino).retime transfers) ∧
      (0 ≤ found → (fs.record drive ino).type = typeDir ∧ (fs.record drive ino).size > 0) := by
  obtain ⟨first, load⟩ := readInode_eq mounted valid slot
  rw [lookup, if_neg mounted.drive_ne, mounted.mounted, load] at call
  simp only [Option.bind_eq_bind, Option.bind_some] at call
  split at call
  · obtain ⟨value, same⟩ := Prod.mk.inj (Option.some.inj call)
    refine ⟨⟨first, same.symm⟩, ?_⟩
    intro positive
    omega
  · next directory =>
    have loaded : ((fs.inodeLoaded drive ino).retime first).inodeLoaded drive ino =
        (fs.inodeLoaded drive ino).retime first := by
      rw [retime_inodeLoaded, mounted.inodeLoaded_twice]
    obtain ⟨transfers, same⟩ := lookupLoop_state ((mounted.inodeLoaded ino).retime first) valid slot loaded call
    refine ⟨⟨transfers, same⟩, ?_⟩
    intro positive
    refine ⟨not_not.mp directory, ?_⟩
    rw [gt_iff_lt, BitVec.lt_def]
    apply Nat.pos_of_ne_zero
    intro empty
    have nothing : (fs.record drive ino).size.toNat / Dirent.bytes = 0 := by
      rw [empty]
      rfl
    rw [nothing] at call
    have value := (Prod.mk.inj (Option.some.inj call)).1
    omega

/-- What the loop finds depends on nothing but what reads of the directory
answer. -/
theorem lookupLoop_agree {other : Diskfs} (mounted : Mounted fs drive) (otherMounted : Mounted other drive)
    (valid : ino.toNat < maxInodes) (slot : ino.toNat % 4 ≠ 3) (loaded : fs.inodeLoaded drive ino = fs)
    (otherLoaded : other.inodeLoaded drive ino = other)
    (same : other.contents drive (other.record drive ino) = fs.contents drive (fs.record drive ino))
    (junk : Nat → Dirent) (name : CString) (turns i first second : Nat) :
    (lookupLoop junk ino name turns (other.retime second) i).map Prod.fst =
      (lookupLoop junk ino name turns (fs.retime first) i).map Prod.fst := by
  induction turns generalizing i first second with
  | zero => rfl
  | succ turns ih =>
    obtain ⟨firstLater, firstRead⟩ := read_eq (mounted.retime first) valid slot (junk i)
      (BitVec.ofNat 32 (i * Dirent.bytes)) (BitVec.ofNat 32 Dirent.bytes)
    obtain ⟨secondLater, secondRead⟩ := read_eq (otherMounted.retime second) valid slot (junk i)
      (BitVec.ofNat 32 (i * Dirent.bytes)) (BitVec.ofNat 32 Dirent.bytes)
    rw [retime_inodeLoaded, loaded] at firstRead
    rw [retime_inodeLoaded, otherLoaded] at secondRead
    have answers : (other.retime second).contents drive ((other.retime second).record drive ino) =
        (fs.retime first).contents drive ((fs.retime first).record drive ino) := same
    rw [answers] at secondRead
    rw [lookupLoop, lookupLoop, firstRead, secondRead]
    cases (fs.retime first).contents drive ((fs.retime first).record drive ino) (junk i)
        (BitVec.ofNat 32 (i * Dirent.bytes)) (BitVec.ofNat 32 Dirent.bytes) with
    | none => rfl
    | some result =>
      obtain ⟨ret, entry⟩ := result
      simp only [Option.map_some, Option.bind_eq_bind, Option.bind_some]
      by_cases failed : ret < 0
      · rw [if_pos failed, if_pos failed]
        rfl
      rw [if_neg failed, if_neg failed]
      by_cases unused : Dirent.inode entry = 0
      · rw [if_pos unused, if_pos unused]
        exact ih (i + 1) firstLater secondLater
      rw [if_neg unused, if_neg unused]
      cases Dirent.nameEquals entry 0 name.bytes with
      | none => rfl
      | some equal =>
        simp only [Option.bind_some]
        cases equal with
        | true => rfl
        | false => exact ih (i + 1) firstLater secondLater

/-- Having loaded the directory before makes no difference to what is found. -/
theorem lookup_loaded (mounted : Mounted fs drive) (valid : ino.toNat < maxInodes) (slot : ino.toNat % 4 ≠ 3)
    (junk : Nat → Dirent) (name : CString) (transfers : Nat) :
    (((fs.inodeLoaded drive ino).retime transfers).lookup junk ino name).map Prod.fst =
      (fs.lookup junk ino name).map Prod.fst := by
  have loadedMounted := (mounted.inodeLoaded ino).retime transfers
  obtain ⟨first, load⟩ := readInode_eq mounted valid slot
  obtain ⟨second, again⟩ := readInode_eq loadedMounted valid slot
  have record_eq : ((fs.inodeLoaded drive ino).retime transfers).record drive ino = fs.record drive ino :=
    mounted.record_inodeLoaded ino
  rw [retime_inodeLoaded, mounted.inodeLoaded_twice, record_eq] at again
  rw [lookup, lookup, if_neg mounted.drive_ne, if_neg loadedMounted.drive_ne, mounted.mounted, loadedMounted.mounted,
    load, again]
  simp only [Option.bind_eq_bind, Option.bind_some]
  split
  · rfl
  · exact lookupLoop_agree (mounted.inodeLoaded ino) (mounted.inodeLoaded ino) valid slot (mounted.inodeLoaded_twice ino)
      (mounted.inodeLoaded_twice ino) rfl junk name _ _ _ _

end Lookup

section Create

variable {fs : Diskfs} {drive : Byte} {parentIno : Word} {ino : Nat}

/-- The inode that `alloc_inode` hands out next. -/
def NextInode (fs : Diskfs) (ino : Nat) : Prop :=
  ino < maxInodes ∧ fs.inodeBitmap.test ino = false ∧ ∀ earlier < ino, fs.inodeBitmap.test earlier = true

/-- The two records that a new entry in `parentIno` writes, that of `ino` and
that of the directory, leave the sizes behind them as they are. -/
structure EntryFits (fs : Diskfs) (drive : Byte) (parentIno : Word) (ino : Nat) : Prop where
  slot : ino % 4 ≠ 3
  next : fs.allocated (ino + 1) → (fs.onDisk drive (ino + 1)).size = 0
  parent : if parentIno.toNat + 1 = ino then (fs.record drive parentIno).word 132 = 0 else fs.Synced drive parentIno

/-- Loading the directory changes nothing here. -/
theorem EntryFits.loaded (fits : fs.EntryFits drive parentIno ino) (mounted : Mounted fs drive)
    (transfers : Nat) : ((fs.inodeLoaded drive parentIno).retime transfers).EntryFits drive parentIno ino := by
  have loaded := inodeLoaded_cacheOnly fs drive parentIno
  have table : ((fs.inodeLoaded drive parentIno).retime transfers).onDisk drive = fs.onDisk drive := loaded.onDisk drive
  have copy : ((fs.inodeLoaded drive parentIno).retime transfers).record drive parentIno = fs.record drive parentIno :=
    mounted.record_inodeLoaded parentIno
  refine ⟨fits.slot, ?_, ?_⟩
  · intro next
    rw [table]
    exact fits.next ((loaded.allocated _).mp next)
  · have condition := fits.parent
    rw [copy]
    split
    · next follows =>
      rw [if_pos follows] at condition
      exact condition
    · next apart =>
      rw [if_neg apart] at condition
      intro next
      rw [copy, table]
      exact condition ((loaded.allocated _).mp next)

theorem allocated_inodeTaken {other : Nat} (valid : ino < maxInodes) :
    (fs.inodeTaken ino).allocated other ↔ other = ino ∨ fs.allocated other := by
  simp only [allocated, inodeTaken, Bitmap.test_set _ (by decide : 0 < 8), Bool.or_eq_true, decide_eq_true_eq]
  constructor
  · rintro ⟨bound, same | present⟩
    · exact .inl same.symm
    · exact .inr ⟨bound, present⟩
  · rintro (same | present)
    · exact ⟨same ▸ valid, .inl same.symm⟩
    · exact ⟨present.1, .inr present.2⟩

theorem fresh_block (type parent now : Word) {index : Nat} (bound : index < directBlocks) :
    (Inode.fresh type parent now).block index = 0 := by
  have limit : index < 12 := bound
  simp only [Inode.fresh, Inode.setMtime, Inode.setCtime, Inode.setParentInode, Inode.setSize, Inode.setType, Inode.block]
  rw [Bytes.word_setWord_of_apart (by omega), Bytes.word_setWord_of_apart (by omega),
    Bytes.word_setWord_of_apart (by omega), Bytes.word_setWord_of_apart (by omega),
    Bytes.word_setWord_of_apart (by omega), Bytes.word_zero]

theorem fresh_size (type parent now : Word) : (Inode.fresh type parent now).size = 0 := by
  simp only [Inode.fresh, Inode.setMtime, Inode.setCtime, Inode.setParentInode, Inode.setSize, Inode.size]
  rw [Bytes.word_setWord_of_apart (by omega), Bytes.word_setWord_of_apart (by omega),
    Bytes.word_setWord_of_apart (by omega), Bytes.word_setWord]

theorem fresh_tail (type parent now : Word) : (Inode.fresh type parent now).word 132 = 0 := by
  simp only [Inode.fresh, Inode.setMtime, Inode.setCtime, Inode.setParentInode, Inode.setSize, Inode.setType]
  rw [Bytes.word_setWord_of_apart (by omega), Bytes.word_setWord_of_apart (by omega),
    Bytes.word_setWord_of_apart (by omega), Bytes.word_setWord_of_apart (by omega),
    Bytes.word_setWord_of_apart (by omega), Bytes.word_zero]

theorem Mounted.inodeTaken (mounted : Mounted fs drive) (valid : ino < maxInodes) (slot : ino % 4 ≠ 3) :
    Mounted (fs.inodeTaken ino) drive := by
  refine ⟨mounted.working, mounted.mounted, ?_, ?_, ?_, mounted.unique⟩
  · rw [← mounted.totalInodes]
    exact Bytes.word_setWord_of_apart (by omega)
  · rw [← mounted.totalBlocks]
    exact Bytes.word_setWord_of_apart (by omega)
  · intro other allocated
    rcases (allocated_inodeTaken valid).mp allocated with same | before
    · rw [same]
      exact slot
    · exact mounted.slots other before

/-- A new inode is a draft without blocks. -/
theorem Consistent.inodeTaken (consistent : Consistent fs drive) (valid : ino < maxInodes) (slot : ino % 4 ≠ 3)
    {inode : Inode} (empty : ∀ index < directBlocks, inode.block index = 0) :
    Draft (fs.inodeTaken ino) drive ino inode := by
  refine ⟨consistent.toMounted.inodeTaken valid slot, ?_, ?_⟩
  · intro i bound present allocated differ
    rcases (allocated_inodeTaken valid).mp allocated with same | before
    · exact absurd same differ
    · exact consistent.coherent i bound present before (fun impossible => impossible)
  · have kept (place : Nat × Nat) (block : Nat)
        (here : (fs.inodeTaken ino).holds (Function.update ((fs.inodeTaken ino).onDisk drive) ino inode) place = some block) :
        fs.holds (fs.onDisk drive) place = some block := by
      obtain ⟨owner, index⟩ := place
      obtain ⟨allocated, bound, nonzero, value⟩ := holds_eq_some.mp here
      by_cases own : owner = ino
      · rw [own, Function.update_self, empty index bound] at nonzero
        exact absurd rfl nonzero
      · rw [Function.update_of_ne own] at nonzero value
        rcases (allocated_inodeTaken valid).mp allocated with same | before
        · exact absurd same own
        · exact holds_eq_some.mpr ⟨before, bound, nonzero, value⟩
    exact consistent.exclusive.restrict kept fun place block here => consistent.exclusive.taken (kept place block here)

/-- Writing one inode leaves the cached copy of another alone. -/
theorem record_inodeWritten {ino other : Word} {i : Nat} (hit : fs.cached other = some i) (differ : other ≠ ino)
    (inode : Inode) : (fs.inodeWritten drive ino inode).record drive other = fs.record drive other := by
  have same : (fs.inodeWritten drive ino inode).cached other = some i := hit
  rw [record_of_hit same, record_of_hit hit]
  cases found : fs.cached ino with
  | none => simp only [Diskfs.inodeWritten, found]
  | some j =>
    have apart : i ≠ j := by
      intro equal
      subst equal
      exact differ ((of_cached hit).2.2.symm.trans (of_cached found).2.2)
    simp only [Diskfs.inodeWritten, found]
    exact Function.update_of_ne apart _ _

/-- The state in which `diskfs_create` writes the entry. -/
def entered (fs : Diskfs) (drive : Byte) (ino parentIno type created : Word) : Diskfs :=
  (fs.inodeTaken ino.toNat).inodeWritten drive ino (Inode.fresh type parentIno created)

theorem Consistent.entered (consistent : Consistent fs drive) {ino : Word} (valid : ino.toNat < maxInodes)
    (slot : ino.toNat % 4 ≠ 3) (last : fs.allocated (ino.toNat + 1) → (fs.onDisk drive (ino.toNat + 1)).size = 0)
    (parentIno type created : Word) : Consistent (fs.entered drive ino parentIno type created) drive := by
  have draft := @Consistent.inodeTaken fs drive ino.toNat consistent valid slot
    (Inode.fresh type parentIno created) fun index bound => fresh_block type parentIno created bound
  apply draft.commit valid slot
  intro allocated
  rcases (allocated_inodeTaken valid).mp allocated with same | before
  · omega
  · exact (fresh_tail type parentIno created).trans (last before).symm

theorem allocated_entered {ino : Word} (valid : ino.toNat < maxInodes) (parentIno type created : Word) {other : Nat} :
    (fs.entered drive ino parentIno type created).allocated other ↔ other = ino.toNat ∨ fs.allocated other :=
  @allocated_inodeTaken fs ino.toNat other valid

theorem NextInode.ne {ino : Word} (next : fs.NextInode ino.toNat) (parent : fs.allocated parentIno.toNat) :
    parentIno ≠ ino := by
  intro same
  have unset := next.2.1
  rw [← same, parent.2] at unset
  cases unset

theorem record_entered {ino : Word} {i : Nat} (hit : fs.cached parentIno = some i) (other : parentIno ≠ ino)
    (type created : Word) : (fs.entered drive ino parentIno type created).record drive parentIno = fs.record drive parentIno :=
  @record_inodeWritten (fs.inodeTaken ino.toNat) drive ino parentIno i hit other _

theorem Synced.entered {ino : Word} (next : fs.NextInode ino.toNat) (parent : fs.allocated parentIno.toNat) {i : Nat}
    (hit : fs.cached parentIno = some i) (fits : fs.EntryFits drive parentIno ino.toNat) (type created : Word) :
    (fs.entered drive ino parentIno type created).Synced drive parentIno := by
  intro allocated
  have condition := fits.parent
  rw [record_entered hit (next.ne parent)]
  by_cases follows : parentIno.toNat + 1 = ino.toNat
  · rw [if_pos follows] at condition
    have own : SameFile (Inode.fresh type parentIno created)
        ((fs.entered drive ino parentIno type created).onDisk drive ino.toNat) :=
      SameFile.of_bytes ((onDisk_inodeWritten_self next.1 _).narrow (by decide) (by decide))
    rw [condition, follows, own.size, fresh_size]
  · rw [if_neg follows] at condition
    have kept : SameFile ((fs.inodeTaken ino.toNat).onDisk drive (parentIno.toNat + 1))
        ((fs.entered drive ino parentIno type created).onDisk drive (parentIno.toNat + 1)) := by
      apply inodeWritten_sameFile next.1 fits.slot follows
      intro same
      exact absurd (BitVec.eq_of_toNat_eq (Nat.succ.inj same)) (next.ne parent)
    rw [kept.size]
    rcases (allocated_entered next.1 parentIno type created).mp allocated with same | before
    · exact absurd same follows
    · exact condition before

/-- When `diskfs_create` keeps the files: it gives up early, or the directory
is allocated and the records it writes fit. -/
def CreateFits (fs : Diskfs) (drive : Byte) (junk : Nat → Dirent) (parentIno : Word) (name : CString) : Prop :=
  maxFilename ≤ name.bytes.length ∨ maxInodes ≤ parentIno.toNat ∨
    parentIno.toNat % 4 ≠ 3 ∧ (fs.record drive parentIno).type ≠ typeDir ∨
    fs.allocated parentIno.toNat ∧ ∀ found after, fs.lookup junk parentIno name = some (found, after) → found < 0 →
      ∀ ino, fs.NextInode ino → fs.EntryFits drive parentIno ino

/-- What `createEntry` does when it returns: nothing for want of an inode, or it
fills one in and writes the entry. -/
theorem createEntry_cases (mounted : Mounted fs drive) {name : CString} {type created written size : Word} {result : Int}
    {after : Diskfs} (call : fs.createEntry parentIno size name type created written = some (result, after)) :
    (result < 0 ∧ after = fs) ∨
      ∃ ino : Word, fs.NextInode ino.toNat ∧ ino.toNat % 4 ≠ 3 ∧
      ∃ ret last, (fs.entered drive ino parentIno type created).write parentIno (Dirent.make ino name) size
          (BitVec.ofNat 32 Dirent.bytes) written = some (ret, last) ∧
        (0 ≤ ret → result = ino.toNat ∧ after = last.sync.2) := by
  rw [createEntry] at call
  rcases allocInode_spec mounted.totalInodes with ⟨_, full⟩ | ⟨number, bound, free, before, taken⟩
  · rw [full] at call
    simp only [Option.bind_eq_bind, Option.bind_some] at call
    rw [if_pos (by decide)] at call
    obtain ⟨failed, same⟩ := Prod.mk.inj (Option.some.inj call)
    exact .inl ⟨by omega, same.symm⟩
  · have limit : number < 512 := bound
    obtain ⟨ino, same⟩ : ∃ ino : Word, ino.toNat = number := by
      refine ⟨BitVec.ofNat 32 number, ?_⟩
      rw [BitVec.toNat_ofNat]
      omega
    subst same
    have place : BitVec.ofInt 32 (ino.toNat : Int) = ino := by simp
    have store := @writeInode_eq (fs.inodeTaken ino.toNat) drive ino mounted.working bound
      (Inode.fresh type parentIno created)
    have mountedDrive : (fs.inodeTaken ino.toNat).mountedDrive = drive := mounted.mounted
    rw [taken] at call
    simp only [Option.bind_eq_bind, Option.bind_some] at call
    rw [if_neg (by omega), place, mountedDrive, store] at call
    by_cases slot : ino.toNat % 4 = 3
    · rw [if_pos slot] at call
      cases call
    rw [if_neg slot] at call
    simp only [Option.bind_some] at call
    rw [if_neg (by simp)] at call
    obtain ⟨⟨ret, last⟩, write, call⟩ := Option.bind_eq_some_iff.mp call
    refine .inr ⟨ino, ⟨bound, free, before⟩, slot, ret, last, write, ?_⟩
    intro succeeded
    simp only at call
    rw [if_neg (by omega)] at call
    obtain ⟨number, same⟩ := Prod.mk.inj (Option.some.inj call)
    exact ⟨number.symm, same.symm⟩

theorem createEntry_consistent (consistent : Consistent fs drive) (parent : fs.allocated parentIno.toNat)
    {i : Nat} (hit : fs.cached parentIno = some i)
    (fits : ∀ ino, fs.NextInode ino → fs.EntryFits drive parentIno ino) {name : CString} {type created written size : Word}
    {result : Int} {after : Diskfs}
    (call : fs.createEntry parentIno size name type created written = some (result, after)) :
    Consistent after drive := by
  rcases createEntry_cases consistent.toMounted call with ⟨_, same⟩ | ⟨ino, next, slot, ret, last, write, returned⟩
  · rw [same]
    exact consistent
  · have entered := consistent.entered next.1 slot (fits _ next).next parentIno type created
    have parentEntered : (fs.entered drive ino parentIno type created).allocated parentIno.toNat :=
      (allocated_entered next.1 parentIno type created).mpr (.inr parent)
    obtain ⟨count, done, again, _, spec⟩ := @write_spec _ drive _ entered parentEntered
      (Synced.entered next parent hit (fits _ next) type created) (Dirent.make ino name) size
      (BitVec.ofNat 32 Dirent.bytes) written
    rw [write] at again
    obtain ⟨value, same⟩ := Prod.mk.inj (Option.some.inj again)
    rw [(returned (by omega)).2, same]
    exact spec.consistent.sync

/-- What `diskfs_create` does when it returns: it has loaded the directory at
most, or it goes on to make the entry. -/
theorem create_cases (mounted : Mounted fs drive) (valid : parentIno.toNat < maxInodes) (slot : parentIno.toNat % 4 ≠ 3)
    {junk : Nat → Dirent} {name : CString} {type created written : Word} {result : Int} {after : Diskfs}
    (call : fs.create junk parentIno name type created written = some (result, after)) :
    (result < 0 ∧ (after = fs ∨ ∃ transfers, after = (fs.inodeLoaded drive parentIno).retime transfers)) ∨
      name.bytes.length < maxFilename ∧ (fs.record drive parentIno).type = typeDir ∧
      (∃ found last, fs.lookup junk parentIno name = some (found, last) ∧ found < 0) ∧
      ∃ transfers, ((fs.inodeLoaded drive parentIno).retime transfers).createEntry parentIno
        (fs.record drive parentIno).size name type created written = some (result, after) := by
  have failed {value : Int} {state : Diskfs} (negative : value < 0)
      (same : state = fs ∨ ∃ transfers, state = (fs.inodeLoaded drive parentIno).retime transfers)
      (returned : some (value, state) = some (result, after)) :
      result < 0 ∧ (after = fs ∨ ∃ transfers, after = (fs.inodeLoaded drive parentIno).retime transfers) := by
    obtain ⟨rfl, rfl⟩ := Prod.mk.inj (Option.some.inj returned)
    exact ⟨negative, same⟩
  rw [create, if_neg mounted.drive_ne] at call
  by_cases long : maxFilename ≤ name.bytes.length
  · rw [if_pos long] at call
    exact .inl (failed (by decide) (.inl rfl) call)
  obtain ⟨first, load⟩ := readInode_eq mounted valid slot
  rw [if_neg long, mounted.mounted, load] at call
  simp only [Option.bind_eq_bind, Option.bind_some] at call
  by_cases directory : (fs.record drive parentIno).type = typeDir
  · rw [if_neg (not_not.mpr directory)] at call
    obtain ⟨⟨found, mid⟩, look, call⟩ := Option.bind_eq_some_iff.mp call
    obtain ⟨⟨transfers, same⟩, _⟩ := lookup_state ((mounted.inodeLoaded parentIno).retime first) valid slot look
    rw [retime_inodeLoaded, mounted.inodeLoaded_twice] at same
    simp only at call
    by_cases exists_entry : 0 ≤ found
    · rw [if_pos exists_entry] at call
      exact .inl (failed (by decide) (.inr ⟨transfers, same⟩) call)
    rw [if_neg exists_entry] at call
    have answer := lookup_loaded mounted valid slot junk name first
    rw [look] at answer
    obtain ⟨⟨original, last⟩, lookup, equal⟩ := Option.map_eq_some_iff.mp answer.symm
    simp only at equal
    subst equal same
    exact .inr ⟨by omega, directory, ⟨original, last, lookup, by omega⟩, transfers, call⟩
  · rw [if_pos directory] at call
    exact .inl (failed (by decide) (.inr ⟨first, rfl⟩) call)

theorem create_consistent (consistent : Consistent fs drive) {junk : Nat → Dirent} {name : CString}
    (fits : fs.CreateFits drive junk parentIno name) {type created written : Word} {result : Int} {after : Diskfs}
    (call : fs.create junk parentIno name type created written = some (result, after)) : Consistent after drive := by
  have mounted := consistent.toMounted
  by_cases long : maxFilename ≤ name.bytes.length
  · rw [create, if_neg mounted.drive_ne, if_pos long] at call
    rw [← (Prod.mk.inj (Option.some.inj call)).2]
    exact consistent
  by_cases beyond : maxInodes ≤ parentIno.toNat
  · rw [create, if_neg mounted.drive_ne, if_neg long, readInode, if_pos beyond] at call
    simp only [Option.bind_eq_bind, Option.bind_some] at call
    rw [← (Prod.mk.inj (Option.some.inj call)).2]
    exact consistent
  have valid : parentIno.toNat < maxInodes := by omega
  have slot : parentIno.toNat % 4 ≠ 3 := by
    rcases fits with impossible | impossible | ⟨slot, _⟩ | ⟨parent, _⟩
    · exact absurd impossible long
    · exact absurd impossible beyond
    · exact slot
    · exact consistent.slots _ parent
  rcases create_cases mounted valid slot call with ⟨_, same | ⟨transfers, same⟩⟩ |
    ⟨_, directory, ⟨found, last, look, missing⟩, transfers, call⟩
  · rw [same]
    exact consistent
  · rw [same]
    exact (consistent.inodeLoaded parentIno).retime transfers
  · rcases fits with impossible | impossible | ⟨_, impossible⟩ | ⟨parent, fits⟩
    · exact absurd impossible long
    · exact absurd impossible beyond
    · exact absurd directory impossible
    have loaded := inodeLoaded_cacheOnly fs drive parentIno
    obtain ⟨i, hit, _⟩ := mounted.cached_inodeLoaded parentIno
    refine createEntry_consistent ((consistent.inodeLoaded parentIno).retime transfers)
      ((loaded.allocated _).mpr parent) hit ?_ call
    intro ino next
    have before : fs.NextInode ino := by
      rw [NextInode, ← loaded.inodeBitmap]
      exact next
    exact (fits found last look missing ino before).loaded mounted transfers

end Create

end MexOS.Fs.Diskfs
