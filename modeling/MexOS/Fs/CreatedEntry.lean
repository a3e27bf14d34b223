import MexOS.Fs.InodeBitmap
import MexOS.Fs.Listing
import MexOS.Fs.Remount

/-! What `diskfs_lookup` and `diskfs_stat` say after `diskfs_create`, over all
runs on a freshly formatted drive. -/

namespace MexOS.Fs

open MexOS.Machine

def Inode.parentInode (inode : Inode) : Word := inode.word 64

namespace Diskfs

/-- The files have their blocks to themselves, the cached records are those of
the table, and the root directory is not free. -/
structure Orderly (fs : Diskfs) (drive : Byte) : Prop where
  consistent : Consistent fs drive
  durable : Durable fs drive fun _ => False
  root : fs.inodeBitmap.test 0 = true

namespace Request

/-- The call keeps every copy of a record in step, and uses allocated inodes. -/
structure Tidy (drive : Byte) (request : Request) (fs : Diskfs) : Prop where
  fits : request.Fits drive fs
  call : ∀ call, request = .change call → call.Fits drive fs

/-- One such call that returns. -/
def TidyStep (drive : Byte) (fs after : Diskfs) : Prop :=
  ∃ request reply, Tidy drive request fs ∧ request.run fs = some (reply, after)

end Request

section Run

variable {fs after : Diskfs} {drive : Byte} {ino : Word}

/-- The inode is loaded, if it is one. -/
def Loads (fs : Diskfs) (drive : Byte) (ino : Word) (after : Diskfs) : Prop :=
  after = fs ∨ ∃ transfers, after = (fs.inodeLoaded drive ino).retime transfers

theorem Loads.consistent (loads : Loads fs drive ino after) (consistent : Consistent fs drive) : Consistent after drive := by
  rcases loads with rfl | ⟨transfers, rfl⟩
  · exact consistent
  · exact (consistent.inodeLoaded ino).retime transfers

theorem Loads.inodeBitmap (loads : Loads fs drive ino after) : after.inodeBitmap = fs.inodeBitmap := by
  rcases loads with rfl | ⟨transfers, rfl⟩
  · rfl
  · exact (inodeLoaded_cacheOnly fs drive ino).inodeBitmap

theorem Durable.readInode_loads (durable : Durable fs drive fun _ => False) {result : Except Int Inode}
    (call : fs.readInode drive ino = some (result, after)) : Loads fs drive ino after := by
  by_cases beyond : maxInodes ≤ ino.toNat
  · rw [readInode, if_pos beyond] at call
    exact .inl (Prod.mk.inj (Option.some.inj call)).2.symm
  have valid : ino.toNat < maxInodes := by omega
  by_cases slot : ino.toNat % 4 = 3
  · rw [durable.readInode_last valid slot] at call
    cases call
  · obtain ⟨transfers, load⟩ := readInode_eq durable.toMounted valid slot
    rw [load] at call
    exact .inr ⟨transfers, (Prod.mk.inj (Option.some.inj call)).2.symm⟩

theorem Durable.read_loads (durable : Durable fs drive fun _ => False) {buffer result : Bytes} {offset size : Word}
    {ret : Int} (call : fs.read ino buffer offset size = some (ret, result, after)) : Loads fs drive ino after := by
  by_cases beyond : maxInodes ≤ ino.toNat
  · rw [read, if_neg durable.drive_ne, readInode, if_pos beyond] at call
    exact .inl (Prod.mk.inj (Prod.mk.inj (Option.some.inj call)).2).2.symm
  have valid : ino.toNat < maxInodes := by omega
  by_cases slot : ino.toNat % 4 = 3
  · rw [read, if_neg durable.drive_ne, durable.mounted, durable.readInode_last valid slot] at call
    cases call
  · obtain ⟨transfers, load⟩ := read_eq durable.toMounted valid slot buffer offset size
    rw [load] at call
    obtain ⟨_, _, same⟩ := Option.map_eq_some_iff.mp call
    exact .inr ⟨transfers, (Prod.mk.inj (Prod.mk.inj same).2).2.symm⟩

theorem Durable.lookup_loads (durable : Durable fs drive fun _ => False) {junk : Nat → Dirent} {name : CString}
    {found : Int} (call : fs.lookup junk ino name = some (found, after)) : Loads fs drive ino after := by
  by_cases beyond : maxInodes ≤ ino.toNat
  · rw [lookup, if_neg durable.drive_ne, readInode, if_pos beyond] at call
    exact .inl (Prod.mk.inj (Option.some.inj call)).2.symm
  have valid : ino.toNat < maxInodes := by omega
  by_cases slot : ino.toNat % 4 = 3
  · rw [lookup, if_neg durable.drive_ne, durable.mounted, durable.readInode_last valid slot] at call
    cases call
  · exact .inr (lookup_state durable.toMounted valid slot call).1

/-- What `diskfs_lookup` finds is not the root directory. -/
theorem Durable.found_ne_root (durable : Durable fs drive fun _ => False) {junk : Nat → Dirent} {name : CString}
    {found : Int} (call : fs.lookup junk ino name = some (found, after)) (positive : 0 ≤ found) :
    (0 : Nat) ≠ (BitVec.ofInt 32 found).toNat := by
  obtain ⟨valid, _, _⟩ := durable.found call positive
  by_cases slot : ino.toNat % 4 = 3
  · rw [lookup, if_neg durable.drive_ne, durable.mounted, durable.readInode_last valid slot] at call
    cases call
  have search := lookup_seek durable.toMounted valid slot junk name
  rw [call, Option.map_some, if_neg (not_not.mpr ((lookup_state durable.toMounted valid slot call).2 positive).1)] at search
  obtain ⟨j, _, here⟩ := seek_found search.symm positive
  obtain ⟨nonzero, value⟩ := Dirent.answer_some here
  dsimp only at value
  rw [value, BitVec.ofInt_toInt]
  intro zero
  exact nonzero (BitVec.eq_of_toNat_eq zero.symm)

/-- The root directory stays, whatever is created and deleted. -/
theorem Orderly.root_kept (orderly : Orderly fs drive) (call : Call) {result : Int}
    (run : call.run fs = some (result, after)) : after.inodeBitmap.test 0 = true := by
  cases call with
  | write ino source offset size now =>
    rw [write_inodeBitmap run]
    exact orderly.root
  | create junk parentIno name type created written => exact create_inodeBitmap orderly.root run
  | delete junk scrap parentIno name now =>
    rw [delete_inodeBitmap (fun found mid look positive => orderly.durable.found_ne_root look positive) run]
    exact orderly.root

theorem step_orderly (orderly : Orderly fs drive) (step : Request.TidyStep drive fs after) : Orderly after drive := by
  obtain ⟨request, reply, tidy, run⟩ := step
  have durable := step_durable orderly.durable ⟨request, reply, tidy.fits, run⟩
  have loaded {ino : Word} (loads : Loads fs drive ino after) : Orderly after drive := by
    refine ⟨loads.consistent orderly.consistent, durable, ?_⟩
    rw [loads.inodeBitmap]
    exact orderly.root
  cases request with
  | change call =>
    obtain ⟨⟨result, last⟩, made, same⟩ := Option.map_eq_some_iff.mp run
    obtain ⟨_, rfl⟩ := Prod.mk.inj same
    exact ⟨step_consistent orderly.consistent ⟨call, result, tidy.call call rfl, made⟩, durable,
      orderly.root_kept call made⟩
  | read ino buffer offset size =>
    obtain ⟨⟨result, data, last⟩, made, same⟩ := Option.map_eq_some_iff.mp run
    obtain ⟨_, rfl⟩ := Prod.mk.inj same
    exact loaded (orderly.durable.read_loads made)
  | stat ino =>
    obtain ⟨⟨result, last⟩, made, same⟩ := Option.map_eq_some_iff.mp run
    obtain ⟨_, rfl⟩ := Prod.mk.inj same
    rw [stat, if_neg orderly.durable.drive_ne, orderly.durable.mounted] at made
    exact loaded (orderly.durable.readInode_loads made)
  | lookup junk dirIno name =>
    obtain ⟨⟨result, last⟩, made, same⟩ := Option.map_eq_some_iff.mp run
    obtain ⟨_, rfl⟩ := Prod.mk.inj same
    exact loaded (orderly.durable.lookup_loads made)

theorem run_orderly (orderly : Orderly fs drive) (run : Reachable (Request.TidyStep drive) fs after) :
    Orderly after drive :=
  run.invariant orderly fun _ _ => step_orderly

theorem fresh_orderly {before ready formatted : Diskfs} {now : Word} (working : before.ata.Working drive)
    (format : before.format drive now = some (0, formatted)) (mount : formatted.mount drive = (0, ready)) :
    Orderly ready drive := by
  obtain ⟨ready', again, consistent⟩ := fresh_consistent working now
  obtain ⟨ready'', same, durable⟩ := fresh_durable working now
  obtain ⟨transfers, shape⟩ := mount_eq working now
  rw [format_eq working now] at format
  obtain rfl := (Prod.mk.inj (Option.some.inj format)).2
  rw [again] at mount
  obtain rfl := (Prod.mk.inj mount).2
  rw [again] at same shape
  obtain rfl := (Prod.mk.inj same).2
  have root : Bitmap.test (Bitmap.set (Bytes.zero : Bitmap 8) 0) 0 = true := by
    rw [Bitmap.test_set _ (by decide)]
    rfl
  refine ⟨consistent, durable, ?_⟩
  rw [(Prod.mk.inj shape).2]
  exact root

end Run

/-- What is expected of a `diskfs_create` that has returned `ino`. -/
structure EntryMade (fs after : Diskfs) (parentIno : Word) (name : CString) (type : Word) (ino : Int) : Prop where
  found : ∀ junk, ∃ last, after.lookup junk parentIno name = some (ino, last)
  stat : ∃ inode last, after.stat (BitVec.ofInt 32 ino) = some (.ok inode, last) ∧ inode.type = type ∧ inode.size = 0 ∧
    inode.parentInode = parentIno
  others : ∀ junk dirIno other found mid, fs.allocated dirIno.toNat → fs.lookup junk dirIno other = some (found, mid) →
    0 ≤ found → ∃ last, after.lookup junk dirIno other = some (found, last)

/-- The directory has no holes and ends with a whole entry, there is room and a
block for one more, no entry of the name has a negative number, and a directory
in front of the new inode ends as the new record begins. -/
structure EntryRoom (fs : Diskfs) (drive : Byte) (junk : Nat → Dirent) (parentIno : Word) (name : CString) (type : Word) :
    Prop where
  aligned : (fs.record drive parentIno).size.toNat % Dirent.bytes = 0
  room : (fs.record drive parentIno).size.toNat + Dirent.bytes ≤ 6144
  whole : ∀ index, 512 * index < (fs.record drive parentIno).size.toNat → (fs.record drive parentIno).block index ≠ 0
  block : fs.HasBlock (fs.record drive parentIno) ((fs.record drive parentIno).size.toNat / 512)
  grant : fs.blockBitmap.test 0 = true ∨
    (fs.record drive parentIno).block ((fs.record drive parentIno).size.toNat / 512) ≠ 0
  numbers : ∀ i value, i < (fs.record drive parentIno).size.toNat / Dirent.bytes →
    Dirent.answer (fs.entryAt drive (fs.record drive parentIno) junk i) name = some (some value) → 0 ≤ value
  follows : fs.NextInode (parentIno.toNat + 1) →
    (fs.record drive parentIno).word 128 = type ∧ (fs.record drive parentIno).word 132 = 0

section Created

variable {fs after : Diskfs} {drive : Byte} {parentIno ino type created written : Word} {name : CString}

theorem fresh_type (type parent now : Word) : (Inode.fresh type parent now).type = type := by
  simp only [Inode.fresh, Inode.setMtime, Inode.setCtime, Inode.setParentInode, Inode.setSize, Inode.setType, Inode.type]
  rw [Bytes.word_setWord_of_apart (by omega), Bytes.word_setWord_of_apart (by omega),
    Bytes.word_setWord_of_apart (by omega), Bytes.word_setWord_of_apart (by omega), Bytes.word_setWord]

theorem fresh_parentInode (type parent now : Word) : (Inode.fresh type parent now).parentInode = parent := by
  simp only [Inode.fresh, Inode.setMtime, Inode.setCtime, Inode.setParentInode, Inode.parentInode]
  rw [Bytes.word_setWord_of_apart (by omega), Bytes.word_setWord_of_apart (by omega), Bytes.word_setWord]

/-- What `diskfs_create` has gone through when it returns `ino`: it has filled in
the inode in the state `ready` and written the entry then. -/
structure Creates (fs : Diskfs) (drive : Byte) (junk : Nat → Dirent) (parentIno : Word) (name : CString)
    (type created written ino : Word) (ready after : Diskfs) : Prop where
  next : fs.NextInode ino.toNat
  parent : fs.allocated parentIno.toNat
  short : name.bytes.length < maxFilename
  directory : (fs.record drive parentIno).type = typeDir
  missing : ∃ found mid, fs.lookup junk parentIno name = some (found, mid) ∧ found < 0
  fits : fs.EntryFits drive parentIno ino.toNat
  inStep : ∀ place < 8, fs.record drive parentIno (128 + place) = fs.onDisk drive (parentIno.toNat + 1) place
  entered : ∃ transfers, ready = ((fs.inodeLoaded drive parentIno).retime transfers).entered drive ino parentIno type created
  stored : ∃ (count : Nat) (last : Diskfs), ready.write parentIno (Dirent.make ino name) (fs.record drive parentIno).size
    (BitVec.ofNat 32 Dirent.bytes) written = some ((count : Int), last) ∧
    Written ready drive parentIno.toNat (Dirent.make ino name) (fs.record drive parentIno).size last count ∧
    after = last.sync.2

theorem create_creates (orderly : Orderly fs drive) {junk : Nat → Dirent}
    (tidy : Request.Tidy drive (.change (.create junk parentIno name type created written)) fs) {result : Int}
    (call : fs.create junk parentIno name type created written = some (result, after)) (success : 0 ≤ result) :
    ∃ (ino : Word) (ready : Diskfs), result = ino.toNat ∧
      Creates fs drive junk parentIno name type created written ino ready after := by
  have consistent := orderly.consistent
  have mounted := consistent.toMounted
  have createFits : fs.CreateFits drive junk parentIno name := tidy.call _ rfl
  by_cases beyond : maxInodes ≤ parentIno.toNat
  · rw [create, if_neg mounted.drive_ne, readInode, if_pos beyond] at call
    split at call <;> cases call <;> cases success
  have valid : parentIno.toNat < maxInodes := by omega
  by_cases long : maxFilename ≤ name.bytes.length
  · rw [create, if_neg mounted.drive_ne, if_pos long] at call
    cases call
    cases success
  have slot : parentIno.toNat % 4 ≠ 3 := by
    rcases createFits with impossible | impossible | ⟨slot, _⟩ | ⟨parent, _⟩
    · exact absurd impossible long
    · exact absurd impossible beyond
    · exact slot
    · exact consistent.slots _ parent
  rcases create_cases mounted valid slot call with ⟨negative, _⟩ |
    ⟨short, directory, ⟨found, mid, look, missing⟩, transfers, entry⟩
  · omega
  obtain ⟨parent, fits⟩ : fs.allocated parentIno.toNat ∧ ∀ ino, fs.NextInode ino → fs.EntryFits drive parentIno ino := by
    rcases createFits with impossible | impossible | ⟨_, impossible⟩ | ⟨parent, fits⟩
    · exact absurd impossible long
    · exact absurd impossible beyond
    · exact absurd directory impossible
    · exact ⟨parent, fits found mid look missing⟩
  have loaded := inodeLoaded_cacheOnly fs drive parentIno
  have base := (consistent.inodeLoaded parentIno).retime transfers
  have baseParent : ((fs.inodeLoaded drive parentIno).retime transfers).allocated parentIno.toNat :=
    (loaded.allocated _).mpr parent
  obtain ⟨i, hit, _⟩ := mounted.cached_inodeLoaded parentIno
  rcases createEntry_cases base.toMounted entry with ⟨negative, _⟩ | ⟨ino, baseNext, inoSlot, ret, last, write, returned⟩
  · omega
  have next : fs.NextInode ino.toNat := by
    rw [NextInode, ← loaded.inodeBitmap]
    exact baseNext
  have baseFits := (fits _ next).loaded mounted transfers
  have entered := base.entered baseNext.1 inoSlot baseFits.next parentIno type created
  obtain ⟨count, done, again, _, spec⟩ := write_spec entered ((allocated_entered baseNext.1 parentIno type created).mpr (.inr baseParent))
    (Synced.entered baseNext baseParent hit baseFits type created) (Dirent.make ino name) (fs.record drive parentIno).size
    (BitVec.ofNat 32 Dirent.bytes) written
  rw [write] at again
  obtain ⟨rfl, rfl⟩ := Prod.mk.inj (Option.some.inj again)
  have returned := returned (Int.natCast_nonneg count)
  have directoryStored : (fs.onDisk drive parentIno.toNat).type = typeDir := by
    rw [← directory]
    exact ((orderly.durable.record valid slot fun impossible => impossible).word (Nat.zero_le _) (by decide)).symm
  have inStep := (((tidy.fits short valid directoryStored).2 found mid look missing ino next).parent (next.ne parent)).1.2
  rw [mounted.record_inodeLoaded, loaded.onDisk] at inStep
  exact ⟨ino, _, returned.1, next, parent, short, directory, ⟨found, mid, look, missing⟩, fits _ next, inStep,
    ⟨transfers, rfl⟩, count, last, write, spec, returned.2⟩

namespace Creates

variable {junk : Nat → Dirent} {ready : Diskfs}

theorem ready_consistent (creates : Creates fs drive junk parentIno name type created written ino ready after)
    (consistent : Consistent fs drive) : Consistent ready drive := by
  obtain ⟨transfers, rfl⟩ := creates.entered
  have mounted := consistent.toMounted
  have loaded := inodeLoaded_cacheOnly fs drive parentIno
  have next : ((fs.inodeLoaded drive parentIno).retime transfers).NextInode ino.toNat := by
    rw [NextInode, retime, loaded.inodeBitmap]
    exact creates.next
  exact ((consistent.inodeLoaded parentIno).retime transfers).entered next.1 creates.fits.slot
    (creates.fits.loaded mounted transfers).next parentIno type created

theorem ready_record (creates : Creates fs drive junk parentIno name type created written ino ready after)
    (mounted : Mounted fs drive) : ready.record drive parentIno = fs.record drive parentIno := by
  obtain ⟨transfers, rfl⟩ := creates.entered
  obtain ⟨i, hit, _⟩ := mounted.cached_inodeLoaded parentIno
  have retimed : ((fs.inodeLoaded drive parentIno).retime transfers).cached parentIno = some i := hit
  rw [record_entered retimed (creates.next.ne creates.parent)]
  exact mounted.record_inodeLoaded parentIno

theorem ready_allocated (creates : Creates fs drive junk parentIno name type created written ino ready after)
    {other : Nat} (allocated : fs.allocated other) : ready.allocated other := by
  obtain ⟨transfers, rfl⟩ := creates.entered
  exact (allocated_entered creates.next.1 parentIno type created).mpr
    (.inr (((inodeLoaded_cacheOnly fs drive parentIno).allocated other).mpr allocated))

theorem ready_blockBitmap (creates : Creates fs drive junk parentIno name type created written ino ready after) :
    ready.blockBitmap = fs.blockBitmap := by
  obtain ⟨transfers, rfl⟩ := creates.entered
  exact (inodeLoaded_cacheOnly fs drive parentIno).blockBitmap

theorem ready_sector (creates : Creates fs drive junk parentIno name type created written ino ready after) {sector : Nat}
    (behind : 545 ≤ sector) : ready.ata.sectors drive sector = fs.ata.sectors drive sector := by
  obtain ⟨transfers, rfl⟩ := creates.entered
  have limit : ino.toNat < 512 := creates.next.1
  rw [Diskfs.entered, inodeWritten_sector_other creates.next.1 _ (by omega), ← (inodeLoaded_cacheOnly fs drive parentIno).ata]
  rfl

theorem ready_own (creates : Creates fs drive junk parentIno name type created written ino ready after) :
    Bytes.Same (Inode.fresh type parentIno created) (ready.onDisk drive ino.toNat) 0 Inode.bytes := by
  obtain ⟨transfers, rfl⟩ := creates.entered
  exact onDisk_inodeWritten_self creates.next.1 _

theorem ready_other (creates : Creates fs drive junk parentIno name type created written ino ready after) {other place : Nat}
    (differ : other ≠ ino.toNat) (behind : other ≠ ino.toNat + 1) (small : place < 128) :
    ready.onDisk drive other place = fs.onDisk drive other place := by
  obtain ⟨transfers, rfl⟩ := creates.entered
  rw [Diskfs.entered, onDisk_inodeWritten_other creates.next.1 creates.fits.slot _ differ small,
    if_neg (fun both => behind both.1), ← (inodeLoaded_cacheOnly fs drive parentIno).onDisk drive]
  rfl

/-- The entry is written into one block. -/
theorem spliced (creates : Creates fs drive junk parentIno name type created written ino ready after)
    (consistent : Consistent fs drive) (room : fs.EntryRoom drive junk parentIno name type) :
    ∃ last new count, after = last.sync.2 ∧
      Written ready drive parentIno.toNat (Dirent.make ino name) (fs.record drive parentIno).size last count ∧
      Spliced ready drive parentIno (Dirent.make ino name) (fs.record drive parentIno).size (BitVec.ofNat 32 Dirent.bytes)
        written new last := by
  have length : (BitVec.ofNat 32 Dirent.bytes).toNat = 32 := rfl
  have aligned : (fs.record drive parentIno).size.toNat % 32 = 0 := room.aligned
  have inside : (fs.record drive parentIno).size.toNat + 32 ≤ 6144 := room.room
  have block : ready.HasBlock (ready.record drive parentIno) ((fs.record drive parentIno).size.toNat / 512) := by
    rw [creates.ready_record consistent.toMounted, HasBlock, creates.ready_blockBitmap]
    exact room.block
  obtain ⟨count, last, write, spec, rfl⟩ := creates.stored
  obtain ⟨same, new, again, splice⟩ := @write_spliced ready drive parentIno (fs.record drive parentIno).size
    (BitVec.ofNat 32 Dirent.bytes) (creates.ready_consistent consistent) (creates.ready_allocated creates.parent)
    (by decide) (by omega) (by omega) block (Dirent.make ino name) written
  rw [write] at again
  obtain ⟨_, rfl⟩ := Prod.mk.inj (Option.some.inj again)
  exact ⟨last, new, count, rfl, spec, splice⟩

/-- `diskfs_sync` leaves the inode table and the data alone. -/
theorem sectors_synced {last : Diskfs} (mounted : Mounted last drive) {sector : Nat} (behind : 33 ≤ sector) :
    last.sync.2.ata.sectors drive sector = last.ata.sectors drive sector := by
  obtain ⟨ata, result, _, same⟩ := sync_spec mounted
  rw [result]
  exact same sector behind

theorem onDisk_synced {last : Diskfs} (mounted : Mounted last drive) (other : Nat) :
    last.sync.2.onDisk drive other = last.onDisk drive other := by
  funext place
  rw [onDisk, onDisk, sectors_synced mounted (by omega)]

/-- The directory is longer by one entry. -/
theorem parent_record (creates : Creates fs drive junk parentIno name type created written ino ready after)
    (consistent : Consistent fs drive) (room : fs.EntryRoom drive junk parentIno name type) (later : Orderly after drive)
    {last : Diskfs} {new : Inode} (mounted : Mounted last drive) (synced : after = last.sync.2)
    (splice : Spliced ready drive parentIno (Dirent.make ino name) (fs.record drive parentIno).size
      (BitVec.ofNat 32 Dirent.bytes) written new last) :
    (after.record drive parentIno).type = typeDir ∧
      (after.record drive parentIno).size.toNat = (fs.record drive parentIno).size.toNat + 32 ∧
      ∀ index < directBlocks, (after.record drive parentIno).block index = new.block index := by
  have record := creates.ready_record consistent.toMounted
  have slot := consistent.slots _ creates.parent
  have inside : (fs.record drive parentIno).size.toNat + 32 ≤ 6144 := room.room
  have length : (BitVec.ofNat 32 Dirent.bytes).toNat = 32 := rfl
  have stored := later.durable.record creates.parent.1 slot fun impossible => impossible
  have table : after.onDisk drive parentIno.toNat = last.onDisk drive parentIno.toNat := by
    rw [synced, onDisk_synced mounted]
  rw [table] at stored
  have own := (splice.own.narrow (Nat.le_refl _) (by decide)).trans stored
  have last_size : ((fs.record drive parentIno).size + BitVec.ofNat 32 Dirent.bytes).toNat =
      (fs.record drive parentIno).size.toNat + 32 := by
    rw [BitVec.toNat_add, length]
    omega
  have head : Bytes.Same (fs.record drive parentIno) new 0 8 := by
    intro place _ upper
    rw [splice.fields place (.inl upper), record]
  have new_size : new.size = (fs.record drive parentIno).size := head.word (by decide) (by decide)
  refine ⟨?_, ?_, ?_⟩
  · have equal : (after.record drive parentIno).type = new.type := (own.word (Nat.le_refl _) (by decide)).trans finished_type
    rw [equal, ← creates.directory]
    exact head.word (Nat.le_refl _) (by decide)
  · have equal : (after.record drive parentIno).size = _ := own.word (by decide) (by decide)
    have grown : (fs.record drive parentIno).size + BitVec.ofNat 32 Dirent.bytes > new.size := by
      rw [new_size, gt_iff_lt, BitVec.lt_def, last_size]
      omega
    rw [equal]
    exact (congrArg BitVec.toNat (finished_size.trans (if_pos grown))).trans last_size
  · intro index bound
    have limit : index < 12 := bound
    have equal : (after.record drive parentIno).block index = _ := own.word (by omega) (by omega)
    exact equal.trans (finished_block bound)

end Creates

/-- The pointers of an allocated inode lead to blocks. -/
theorem Consistent.block_small (consistent : Consistent fs drive) (allocated : fs.allocated ino.toNat) {index : Nat}
    (bound : index < directBlocks) (nonzero : (fs.record drive ino).block index ≠ 0) :
    ((fs.record drive ino).block index).toNat < maxBlocks := by
  rw [(consistent.record_sameFile allocated).block index bound] at nonzero ⊢
  exact consistent.pointer_small allocated bound nonzero

/-- A directory after `diskfs_create`: the entries from before, and the new one
behind them. -/
structure Grown (fs after : Diskfs) (drive : Byte) (parentIno ino : Word) (name : CString) : Prop where
  directory : (after.record drive parentIno).type = typeDir
  size : (after.record drive parentIno).size.toNat = (fs.record drive parentIno).size.toNat + 32
  kept : ∀ i < (fs.record drive parentIno).size.toNat / 32, ∀ junk other,
    Bytes.Same (fs.entryAt drive (fs.record drive parentIno) junk i)
      (after.entryAt drive (after.record drive parentIno) other i) 0 Dirent.bytes
  added : ∀ junk, Bytes.Same (Dirent.make ino name)
    (after.entryAt drive (after.record drive parentIno) junk ((fs.record drive parentIno).size.toNat / 32)) 0 Dirent.bytes

theorem Creates.grown {junk : Nat → Dirent} {ready : Diskfs}
    (creates : Creates fs drive junk parentIno name type created written ino ready after) (consistent : Consistent fs drive)
    (room : fs.EntryRoom drive junk parentIno name type) (later : Orderly after drive)
    (still : after.allocated parentIno.toNat) : Grown fs after drive parentIno ino name := by
  obtain ⟨last, new, count, synced, spec, splice⟩ := creates.spliced consistent room
  have mounted := spec.consistent.toMounted
  have record := creates.ready_record consistent.toMounted
  have aligned : (fs.record drive parentIno).size.toNat % 32 = 0 := room.aligned
  have inside : (fs.record drive parentIno).size.toNat + 32 ≤ 6144 := room.room
  obtain ⟨directory, size, blocks⟩ := creates.parent_record consistent room later mounted synced splice
  have sector (block : Nat) : after.ata.sectors drive (545 + block) = last.ata.sectors drive (545 + block) := by
    rw [synced, Creates.sectors_synced mounted (by omega)]
  refine ⟨directory, size, ?_, ?_⟩
  · intro i before junk other place _ upper
    have limit : place < 32 := upper
    have bound : i / 16 < directBlocks := by
      rw [directBlocks]
      omega
    have pointer := room.whole (i / 16) (by omega)
    have same : (after.record drive parentIno).block (i / 16) = (fs.record drive parentIno).block (i / 16) := by
      rw [blocks _ bound, splice.kept _ (by rw [record]; exact pointer), record]
    have small := consistent.block_small creates.parent bound pointer
    have index : (i * 32 + place) / 512 = i / 16 := by omega
    have lane : (i * 32 + place) % 512 = i % 16 * 32 + place := by omega
    have frame := splice.frame (i * 32 + place)
    rw [record, index, lane] at frame
    rw [entryAt_place bound pointer small upper, entryAt_place bound (same ▸ pointer) (same ▸ small) upper, same, sector,
      frame bound pointer (.inl (by omega)), creates.ready_sector (by omega)]
  · intro junk place _ upper
    have limit : place < 32 := upper
    have index : (fs.record drive parentIno).size.toNat / 32 / 16 = (fs.record drive parentIno).size.toNat / 512 := by omega
    have lane : (fs.record drive parentIno).size.toNat / 32 % 16 * 32 = (fs.record drive parentIno).size.toNat % 512 := by omega
    have bound : (fs.record drive parentIno).size.toNat / 32 / 16 < directBlocks := by
      rw [directBlocks]
      omega
    have pointer : (after.record drive parentIno).block ((fs.record drive parentIno).size.toNat / 32 / 16) ≠ 0 := by
      rw [blocks _ bound, index]
      apply splice.granted
      rw [creates.ready_blockBitmap, record]
      exact room.grant
    have small := later.consistent.block_small still bound pointer
    rw [entryAt_place bound pointer small upper, blocks _ bound, index, lane, sector]
    exact splice.written place upper

/-- What a lookup answers, whatever it loads. -/
theorem lookup_answer {junk : Nat → Dirent} {found : Int} (answer : (after.lookup junk ino name).map Prod.fst = some found) :
    ∃ last, after.lookup junk ino name = some (found, last) := by
  obtain ⟨⟨_, last⟩, call, rfl⟩ := Option.map_eq_some_iff.mp answer
  exact ⟨last, call⟩

/-- The entries from before answer as before. -/
theorem Grown.seek_kept (grown : Grown fs after drive parentIno ino name) (junk other : Nat → Dirent) (wanted : CString) :
    seek (fun j => Dirent.answer (after.entryAt drive (after.record drive parentIno) other j) wanted)
        ((fs.record drive parentIno).size.toNat / 32) 0 =
      seek (fun j => Dirent.answer (fs.entryAt drive (fs.record drive parentIno) junk j) wanted)
        ((fs.record drive parentIno).size.toNat / 32) 0 := by
  apply seek_congr
  intro j _ upper
  exact Dirent.answer_congr (grown.kept j (by omega) junk other) wanted

theorem Grown.lookup (grown : Grown fs after drive parentIno ino name) (mounted : Mounted after drive)
    (valid : parentIno.toNat < maxInodes) (slot : parentIno.toNat % 4 ≠ 3) (junk : Nat → Dirent) (wanted : CString) :
    (after.lookup junk parentIno wanted).map Prod.fst =
      seek (fun j => Dirent.answer (after.entryAt drive (after.record drive parentIno) junk j) wanted)
        ((fs.record drive parentIno).size.toNat / 32 + 1) 0 := by
  have more : (after.record drive parentIno).size.toNat / Dirent.bytes = (fs.record drive parentIno).size.toNat / 32 + 1 := by
    rw [grown.size, Dirent.bytes]
    omega
  rw [lookup_seek mounted valid slot, if_neg (not_not.mpr grown.directory), more]

namespace Creates

variable {junk : Nat → Dirent} {ready : Diskfs}

/-- No entry in front of the new one carries its name. -/
theorem unnamed (creates : Creates fs drive junk parentIno name type created written ino ready after)
    (mounted : Mounted fs drive) (slot : parentIno.toNat % 4 ≠ 3) (room : fs.EntryRoom drive junk parentIno name type) :
    ∀ j < (fs.record drive parentIno).size.toNat / 32,
      Dirent.answer (fs.entryAt drive (fs.record drive parentIno) junk j) name = some none := by
  obtain ⟨found, mid, look, missing⟩ := creates.missing
  have search := lookup_seek mounted creates.parent.1 slot junk name
  rw [look, if_neg (not_not.mpr creates.directory)] at search
  intro j bound
  refine seek_missing search.symm missing ?_ j (Nat.zero_le _) (by rw [Nat.zero_add]; exact bound)
  intro k value _ upper
  rw [Nat.zero_add] at upper
  exact room.numbers k value upper

theorem lookup_new (creates : Creates fs drive junk parentIno name type created written ino ready after)
    (grown : Grown fs after drive parentIno ino name) (mounted : Mounted fs drive) (later : Mounted after drive)
    (slot : parentIno.toNat % 4 ≠ 3) (room : fs.EntryRoom drive junk parentIno name type) (nonzero : ino ≠ 0)
    (other : Nat → Dirent) : ∃ last, after.lookup other parentIno name = some ((ino.toNat : Int), last) := by
  have limit : ino.toNat < 512 := creates.next.1
  have number : ino.toInt = ino.toNat := BitVec.toInt_eq_toNat_of_lt (by omega)
  have silent := creates.unnamed mounted slot room
  apply lookup_answer
  rw [grown.lookup later creates.parent.1 slot, seek_skip, seek, Nat.zero_add,
    Dirent.answer_congr (grown.added other), Dirent.answer_make creates.short nonzero, number]
  · rfl
  · intro j _ upper
    rw [Nat.zero_add] at upper
    rw [Dirent.answer_congr (grown.kept j upper junk other)]
    exact silent j upper

/-- Names that were in the directory are still found in it. -/
theorem lookup_kept (creates : Creates fs drive junk parentIno name type created written ino ready after)
    (grown : Grown fs after drive parentIno ino name) (mounted : Mounted fs drive) (later : Mounted after drive)
    (slot : parentIno.toNat % 4 ≠ 3) {other : Nat → Dirent} {wanted : CString} {found : Int} {mid : Diskfs}
    (look : fs.lookup other parentIno wanted = some (found, mid)) (positive : 0 ≤ found) :
    ∃ last, after.lookup other parentIno wanted = some (found, last) := by
  have search := lookup_seek mounted creates.parent.1 slot other wanted
  rw [look, if_neg (not_not.mpr creates.directory)] at search
  apply lookup_answer
  rw [grown.lookup later creates.parent.1 slot]
  apply seek_hit _ positive
  rw [grown.seek_kept other other]
  exact search.symm

/-- Records of other inodes are as they were, but for the one behind the new
inode. -/
theorem table_kept (creates : Creates fs drive junk parentIno name type created written ino ready after)
    (consistent : Consistent fs drive) (room : fs.EntryRoom drive junk parentIno name type) {other : Nat}
    (valid : other < maxInodes) (notParent : other ≠ parentIno.toNat) (notNew : other ≠ ino.toNat)
    (notNext : other ≠ ino.toNat + 1) : Bytes.Same (fs.onDisk drive other) (after.onDisk drive other) 0 128 := by
  obtain ⟨last, new, count, rfl, spec, splice⟩ := creates.spliced consistent room
  intro place _ upper
  rw [onDisk_synced spec.consistent.toMounted, splice.others other valid notParent place upper,
    creates.ready_record consistent.toMounted]
  split
  · next tail => rw [creates.inStep place tail.2, tail.1]
  · exact creates.ready_other notNew notNext upper

theorem lookup_other (creates : Creates fs drive junk parentIno name type created written ino ready after)
    (orderly : Orderly fs drive) (room : fs.EntryRoom drive junk parentIno name type) (later : Orderly after drive)
    {dirIno : Word} (differ : dirIno ≠ parentIno) (allocated : fs.allocated dirIno.toNat)
    {other : Nat → Dirent} {wanted : CString} {found : Int} {mid : Diskfs}
    (look : fs.lookup other dirIno wanted = some (found, mid)) (positive : 0 ≤ found) :
    ∃ last, after.lookup other dirIno wanted = some (found, last) := by
  have consistent := orderly.consistent
  have slot := consistent.slots _ allocated
  have notParent : dirIno.toNat ≠ parentIno.toNat := fun same => differ (BitVec.eq_of_toNat_eq same)
  have notNew : dirIno.toNat ≠ ino.toNat := fun same => creates.next.ne allocated (BitVec.eq_of_toNat_eq same)
  have nonempty := ((lookup_state consistent.toMounted allocated.1 slot look).2 positive).2
  have notNext : dirIno.toNat ≠ ino.toNat + 1 := by
    intro same
    have empty := creates.fits.next (same ▸ allocated)
    rw [(consistent.record_sameFile allocated).size, same, empty] at nonempty
    exact absurd nonempty (by decide)
  have table := creates.table_kept consistent room allocated.1 notParent notNew notNext
  have before := orderly.durable.record allocated.1 slot fun impossible => impossible
  have record := (before.symm.trans table).trans (later.durable.record allocated.1 slot fun impossible => impossible)
  have sameType : (after.record drive dirIno).type = (fs.record drive dirIno).type := record.word (Nat.le_refl _) (by decide)
  have file : SameFile (fs.record drive dirIno) (after.record drive dirIno) :=
    SameFile.of_bytes (record.narrow (by decide) (by decide))
  obtain ⟨last, new, count, synced, spec, splice⟩ := creates.spliced consistent room
  have data (index : Nat) (bound : index < directBlocks) (pointer : (fs.record drive dirIno).block index ≠ 0) :
      after.content drive ((fs.record drive dirIno).block index) = fs.content drive ((fs.record drive dirIno).block index) := by
    have small := consistent.block_small allocated bound pointer
    have readyTable : (ready.onDisk drive dirIno.toNat).block index = (fs.record drive dirIno).block index := by
      have same : Bytes.Same (fs.onDisk drive dirIno.toNat) (ready.onDisk drive dirIno.toNat) 0 128 :=
        fun place _ upper => creates.ready_other notNew notNext upper
      have limit : index < 12 := bound
      have equal : (ready.onDisk drive dirIno.toNat).block index = (fs.onDisk drive dirIno.toNat).block index :=
        same.word (by omega) (by omega)
      rw [equal, (consistent.record_sameFile allocated).block index bound]
    have stored := (spec.others dirIno.toNat notParent (creates.ready_allocated allocated)).data index bound
      (by rw [readyTable]; exact pointer)
    rw [readyTable] at stored
    have synchronous := content_congr small (by rw [synced, sectors_synced spec.consistent.toMounted (by omega)] :
      after.ata.sectors drive (545 + ((fs.record drive dirIno).block index).toNat) =
        last.ata.sectors drive (545 + ((fs.record drive dirIno).block index).toNat))
    rw [synchronous, stored]
    exact content_congr small (creates.ready_sector (by omega))
  have search := lookup_seek consistent.toMounted allocated.1 slot other wanted
  apply lookup_answer
  rw [lookup_seek later.consistent.toMounted allocated.1 slot, sameType, file.size, entryAt_congr file data, ← search, look]
  rfl

/-- `diskfs_stat` shows what was filled in. -/
theorem stat_new (creates : Creates fs drive junk parentIno name type created written ino ready after)
    (consistent : Consistent fs drive) (room : fs.EntryRoom drive junk parentIno name type) (later : Orderly after drive) :
    ∃ inode last, after.stat ino = some (.ok inode, last) ∧ inode.type = type ∧ inode.size = 0 ∧
      inode.parentInode = parentIno := by
  have valid := creates.next.1
  have slot := creates.fits.slot
  have differ : ino.toNat ≠ parentIno.toNat := by
    intro same
    exact creates.next.ne creates.parent (BitVec.eq_of_toNat_eq same.symm)
  obtain ⟨last, new, count, synced, spec, splice⟩ := creates.spliced consistent room
  obtain ⟨transfers, load⟩ := readInode_eq later.consistent.toMounted valid slot
  have stored := later.durable.record valid slot fun impossible => impossible
  have record (place : Nat) (small : place < 128) : after.record drive ino place =
      if ino.toNat = parentIno.toNat + 1 ∧ place < 8 then fs.record drive parentIno (128 + place)
      else Inode.fresh type parentIno created place := by
    rw [stored place (Nat.zero_le _) small, synced, onDisk_synced spec.consistent.toMounted,
      splice.others ino.toNat valid differ place small, creates.ready_record consistent.toMounted]
    split
    · rfl
    · exact creates.ready_own place (Nat.zero_le _) (by rw [Inode.bytes]; omega)
  refine ⟨after.record drive ino, (after.inodeLoaded drive ino).retime transfers, ?_, ?_, ?_, ?_⟩
  · rw [stat, if_neg later.durable.drive_ne, later.durable.mounted, load]
  · by_cases behind : ino.toNat = parentIno.toNat + 1
    · rw [← (room.follows (behind ▸ creates.next)).1]
      apply Bytes.word_shift
      intro lane small
      rw [Nat.zero_add, record lane (by omega), if_pos ⟨behind, by omega⟩]
    · rw [← fresh_type type parentIno created]
      apply Bytes.word_shift
      intro lane small
      rw [Nat.zero_add, record lane (by omega), if_neg (fun both => behind both.1)]
  · by_cases behind : ino.toNat = parentIno.toNat + 1
    · rw [← (room.follows (behind ▸ creates.next)).2]
      apply Bytes.word_shift
      intro lane small
      rw [record (4 + lane) (by omega), if_pos ⟨behind, by omega⟩, ← Nat.add_assoc]
    · rw [← fresh_size type parentIno created]
      apply Bytes.word_shift
      intro lane small
      rw [record (4 + lane) (by omega), if_neg (fun both => behind both.1)]
  · rw [← fresh_parentInode type parentIno created]
    apply Bytes.word_shift
    intro lane small
    rw [record (64 + lane) (by omega), if_neg (by omega)]

end Creates

/-- In every state of a run whose calls keep the records in step, a created
entry is found, if it gets room in its directory. -/
theorem created_entry_found {before ready formatted : Diskfs} {now : Word} (working : before.ata.Working drive)
    (format : before.format drive now = some (0, formatted)) (mount : formatted.mount drive = (0, ready))
    (run : Reachable (Request.TidyStep drive) ready fs) {junk : Nat → Dirent}
    (tidy : Request.Tidy drive (.change (.create junk parentIno name type created written)) fs)
    (room : fs.EntryRoom drive junk parentIno name type) {result : Int}
    (call : fs.create junk parentIno name type created written = some (result, after)) (success : 0 ≤ result) :
    EntryMade fs after parentIno name type result := by
  have orderly := run_orderly (fresh_orderly working format mount) run
  have consistent := orderly.consistent
  have later : Orderly after drive := by
    refine step_orderly orderly ⟨_, .code result, tidy, ?_⟩
    rw [Request.run, Call.run, call]
    rfl
  obtain ⟨ino, filled, rfl, creates⟩ := create_creates orderly tidy call success
  have slot := consistent.slots _ creates.parent
  have nonzero : ino ≠ 0 := by
    rintro rfl
    have unset := creates.next.2.1
    have root : fs.inodeBitmap.test (0 : Word).toNat = true := orderly.root
    rw [root] at unset
    cases unset
  have grown := creates.grown consistent room later ⟨creates.parent.1, create_inodeBitmap creates.parent.2 call⟩
  have number : BitVec.ofInt 32 (ino.toNat : Int) = ino := by simp
  refine ⟨?_, ?_, ?_⟩
  · exact creates.lookup_new grown consistent.toMounted later.consistent.toMounted slot room nonzero
  · rw [number]
    exact creates.stat_new consistent room later
  · intro other dirIno wanted found mid allocated look positive
    by_cases same : dirIno = parentIno
    · subst same
      exact creates.lookup_kept grown consistent.toMounted later.consistent.toMounted slot look positive
    · exact creates.lookup_other orderly room later same allocated look positive

end Created

section Examples

variable {fs : Diskfs} {drive : Byte} {parentIno ino type created written : Word} {name : CString}

theorem NextInode.unique {number other : Nat} (next : fs.NextInode number) (again : fs.NextInode other) : number = other := by
  rcases Nat.lt_trichotomy number other with before | same | behind
  · have used := again.2.2 number before
    rw [next.2.1] at used
    cases used
  · exact same
  · have used := next.2.2 other behind
    rw [again.2.1] at used
    cases used

theorem tidy_create (mounted : Mounted fs drive) (junk : Nat → Dirent) (next : fs.NextInode ino.toNat)
    (parent : fs.allocated parentIno.toNat) (slot : ino.toNat % 4 ≠ 3) (last : ¬ fs.allocated (ino.toNat + 1))
    (small : ∀ index < directBlocks, ((fs.onDisk drive parentIno.toNat).block index).toNat < maxBlocks)
    (others : ∀ i < 8, (fs.inodeLoaded drive parentIno).inodeCacheValid i = true →
      ((fs.inodeLoaded drive parentIno).inodeCacheNum i).toNat ≠ ino.toNat + 1)
    (behind : ino.toNat = parentIno.toNat + 1 →
      (fs.record drive parentIno).word 132 = 0 ∧ (fs.inodeLoaded drive parentIno).cached ino = none)
    (inStep : ∀ place < 8, fs.record drive parentIno (128 + place) = fs.onDisk drive (parentIno.toNat + 1) place) :
    Request.Tidy drive (.change (.create junk parentIno name type created written)) fs := by
  have loaded := (inodeLoaded_cacheOnly fs drive parentIno).onDisk drive
  have leads {limit : Nat} (low : limit ≤ 545) : LeadsBehind (fs.onDisk drive parentIno.toNat) limit := by
    intro index bound _
    rw [sectorOf_data (small index bound)]
    omega
  refine ⟨?_, ?_⟩
  · intro _ _ _
    refine ⟨leads (by decide), ?_⟩
    intro _ _ _ _ number again
    obtain rfl : ino = number := BitVec.eq_of_toNat_eq (next.unique again)
    refine ⟨slot, fun i bound valid cached => absurd cached (others i bound valid), ?_, ?_⟩
    · intro _
      rw [loaded]
      refine ⟨⟨mounted.slots _ parent, ?_⟩, leads (by decide)⟩
      rw [mounted.record_inodeLoaded, loaded]
      exact inStep
    · intro same cached
      exact absurd (behind same).2 cached
  · rintro _ ⟨rfl⟩
    refine .inr (.inr (.inr ⟨parent, ?_⟩))
    intro _ _ _ _ number again
    obtain rfl : ino.toNat = number := next.unique again
    refine ⟨slot, fun allocated => absurd allocated last, ?_⟩
    split
    · next same => exact (behind same.symm).1
    · intro _
      refine Bytes.word_shift fun lane inside => ?_
      have same := inStep (4 + lane) (by omega)
      rw [← Nat.add_assoc] at same
      exact same

end Examples

/-- The state that a call leaves. -/
def Call.leaves (call : Call) (fs : Diskfs) : Diskfs := (call.run fs).elim fs Prod.snd

theorem Call.run_leaves {call : Call} {fs : Diskfs} (returned : (call.run fs).isSome = true) :
    ∃ result, call.run fs = some (result, call.leaves fs) := by
  obtain ⟨⟨result, after⟩, run⟩ := Option.isSome_iff_exists.mp returned
  exact ⟨result, by rw [Call.leaves, run]; rfl⟩

/-- The root directory begins with an unused entry, for which block 0 is lost. -/
def padded : Diskfs := (Call.write 0 Bytes.zero 0 32 0).leaves zeroDrive

def lettered : Diskfs := (createLetter 97 (by decide)).leaves padded

theorem padded_step : Request.TidyStep 0 zeroDrive padded := by
  obtain ⟨result, run⟩ := @Call.run_leaves (.write 0 Bytes.zero 0 32 0) zeroDrive (by decide)
  have pointers : ∀ index < directBlocks, (zeroDrive.onDisk 0 0).block index = 0 := by decide
  refine ⟨.change (.write 0 Bytes.zero 0 32 0), .code result, ⟨?_, ?_⟩, ?_⟩
  · intro _
    refine ⟨⟨by decide, by decide⟩, ?_⟩
    exact fun index bound nonzero => absurd (pointers index bound) nonzero
  · rintro _ ⟨rfl⟩
    exact .inr ⟨by decide, fun _ => by decide⟩
  · rw [Request.run, run]
    rfl

theorem padded_orderly : Orderly padded 0 :=
  step_orderly (fresh_orderly (uniform_working 0 0 (by decide)) zeroDrive_ready.1 zeroDrive_ready.2) padded_step

theorem lettered_step : Request.TidyStep 0 padded lettered := by
  obtain ⟨result, run⟩ := @Call.run_leaves (createLetter 97 (by decide)) padded (by decide)
  have root : padded.inodeBitmap.test 0 = true := by decide
  have next : padded.NextInode (1 : Word).toNat := by
    refine ⟨by decide, by decide, ?_⟩
    intro earlier before
    obtain rfl : earlier = 0 := Nat.lt_one_iff.mp before
    exact root
  refine ⟨.change (createLetter 97 (by decide)), .code result, ?_, ?_⟩
  · exact tidy_create padded_orderly.consistent.toMounted _ next ⟨by decide, root⟩ (by decide) (by decide)
      (by decide) (by decide) (fun _ => by decide) (by decide)
  · rw [Request.run, run]
    rfl

/-- The second file of a root directory without holes is found in it. -/
theorem created_entry_found_second :
    ∃ after, lettered.create (fun _ => Bytes.zero) 0 ⟨[98], by decide⟩ typeFile 0 0 = some (2, after) ∧
      EntryMade lettered after 0 ⟨[98], by decide⟩ typeFile 2 := by
  have check : (lettered.create (fun _ => Bytes.zero) 0 ⟨[98], by decide⟩ typeFile 0 0).any
      (fun result => decide (result.1 = 2)) = true := by decide +kernel
  obtain ⟨⟨result, after⟩, call, number⟩ := (Option.any_eq_true _ _).mp check
  obtain rfl : result = 2 := of_decide_eq_true number
  have root : lettered.inodeBitmap.test 0 = true := by decide +kernel
  have first : lettered.inodeBitmap.test 1 = true := by decide +kernel
  have next : lettered.NextInode (2 : Word).toNat := by
    refine ⟨by decide, by decide +kernel, ?_⟩
    intro earlier before
    rcases Nat.lt_succ_iff_lt_or_eq.mp before with below | rfl
    · obtain rfl : earlier = 0 := Nat.lt_one_iff.mp below
      exact root
    · exact first
  have size : (lettered.record 0 0).size = 64 := by decide +kernel
  have pointer : (lettered.record 0 0).block 0 ≠ 0 := by decide +kernel
  have answers : ∀ i < 2, Dirent.answer (lettered.entryAt 0 (lettered.record 0 0) (fun _ => Bytes.zero) i)
      ⟨[98], by decide⟩ = some none := by decide +kernel
  have tidy : Request.Tidy 0 (.change (.create (fun _ => Bytes.zero) 0 ⟨[98], by decide⟩ typeFile 0 0)) lettered :=
    tidy_create (step_orderly padded_orderly lettered_step).consistent.toMounted _ next ⟨by decide, root⟩ (by decide)
      (by decide +kernel) (by decide +kernel) (by decide +kernel) (fun same => absurd same (by decide)) (by decide +kernel)
  have room : lettered.EntryRoom 0 (fun _ => Bytes.zero) 0 ⟨[98], by decide⟩ typeFile := by
    refine ⟨by rw [size]; rfl, by rw [size]; decide, ?_, by rw [size]; exact .inl pointer, by rw [size]; exact .inr pointer,
      ?_, ?_⟩
    · intro index below
      have limit : 512 * index < 64 := by
        rw [size] at below
        exact below
      obtain rfl : index = 0 := by omega
      exact pointer
    · intro i value below here
      have limit : i < 2 := by
        rw [size] at below
        exact below
      rw [answers i limit] at here
      cases here
    · intro again
      have unset : lettered.inodeBitmap.test 1 = false := again.2.1
      rw [first] at unset
      cases unset
  exact ⟨after, call, @created_entry_found lettered after 0 0 typeFile 0 0 ⟨[98], by decide⟩ (uniform 0) zeroDrive _ 0
    (uniform_working 0 0 (by decide)) zeroDrive_ready.1 zeroDrive_ready.2
    ((Relation.ReflTransGen.single padded_step).tail lettered_step) _ tidy room 2 call (by decide)⟩

/-- The first file of a fresh drive gets block 0 for its entry, whose pointer
reads as unallocated; and in a directory of the greatest size nothing is written,
which is not taken for a failure. -/
theorem created_entry_lost :
    ((uniform 0).format 0 0 = some (0, (uniform 0).formatted 0 0) ∧
      ((uniform 0).formatted 0 0).mount 0 = (0, zeroDrive)) ∧
    (∃ after, (createLetter 97 (by decide)).run zeroDrive = some (1, after) ∧
      ¬ EntryMade zeroDrive after 0 ⟨[97], by decide⟩ typeFile 1) ∧
    ∃ padded after, Step zeroDrive padded ∧ (createLetter 97 (by decide)).run padded = some (1, after) ∧
      ¬ EntryMade padded after 0 ⟨[97], by decide⟩ typeFile 1 := by
  have lost {fs after : Diskfs} (look : (after.lookup (fun _ => Bytes.zero) 0 ⟨[97], by decide⟩).any
      (fun result => decide (result.1 = -1)) = true) : ¬ EntryMade fs after 0 ⟨[97], by decide⟩ typeFile 1 := by
    rintro ⟨found, _, _⟩
    obtain ⟨last, same⟩ := found fun _ => Bytes.zero
    rw [same] at look
    simp at look
  have first : ((createLetter 97 (by decide)).run zeroDrive).any (fun made => decide (made.1 = 1) &&
      (made.2.lookup (fun _ => Bytes.zero) 0 ⟨[97], by decide⟩).any fun result => decide (result.1 = -1)) = true := by
    decide +kernel
  have full : ((Call.write 0 Bytes.zero 6144 0 1).run zeroDrive).any (fun padded =>
      ((createLetter 97 (by decide)).run padded.2).any fun made => decide (made.1 = 1) &&
      (made.2.lookup (fun _ => Bytes.zero) 0 ⟨[97], by decide⟩).any fun result => decide (result.1 = -1)) = true := by
    decide +kernel
  refine ⟨zeroDrive_ready, ?_, ?_⟩
  · obtain ⟨⟨_, after⟩, call, facts⟩ := (Option.any_eq_true _ _).mp first
    obtain ⟨number, look⟩ := Bool.and_eq_true_iff.mp facts
    obtain rfl := of_decide_eq_true number
    exact ⟨after, call, lost look⟩
  · obtain ⟨⟨_, padded⟩, pad, facts⟩ := (Option.any_eq_true _ _).mp full
    obtain ⟨⟨_, after⟩, call, facts⟩ := (Option.any_eq_true _ _).mp facts
    obtain ⟨number, look⟩ := Bool.and_eq_true_iff.mp facts
    obtain rfl := of_decide_eq_true number
    exact ⟨padded, after, ⟨_, _, pad⟩, call, lost look⟩

end Diskfs

end MexOS.Fs
