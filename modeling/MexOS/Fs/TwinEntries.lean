import MexOS.Fs.TwinCalls

/-! `diskfs_create` and `diskfs_delete` on twins, whose copies of the records
they write must be in step. -/

namespace MexOS.Fs.Diskfs

open MexOS.Machine

section Release

variable {fs other : Diskfs} {drive : Byte} {skip : Nat → Prop}

theorem Mounted.released {after : Diskfs} (mounted : Mounted fs drive) (released : Released fs after)
    (fewer : ∀ ino, after.allocated ino → fs.allocated ino) : Mounted after drive := by
  refine ⟨?_, released.mountedDrive.trans mounted.mounted, released.totalInodes.trans mounted.totalInodes,
    released.totalBlocks.trans mounted.totalBlocks, fun ino still => mounted.slots ino (fewer ino still), ?_⟩
  · rw [released.ata]
    exact mounted.working
  · rw [released.inodeCacheValid, released.inodeCacheNum]
    exact mounted.unique

theorem Twins.blockFreed (twins : Twins drive skip fs other) (block : Nat) :
    Twins drive skip (fs.blockFreed block) (other.blockFreed block) := by
  have left := blockFreed_released fs block
  have right := blockFreed_released other block
  refine ⟨twins.left.of_copies (twins.left.toMounted.released left fun _ still => still) (.released left drive)
      (magic_free (by decide)),
    twins.right.of_copies (twins.right.toMounted.released right fun _ still => still) (.released right drive)
      (magic_free (by decide)), ?_, twins.inodeBitmap, ?_, twins.sectors⟩
  · simp only [Diskfs.blockFreed, twins.superblock]
  · simp only [Diskfs.blockFreed, twins.blockBitmap]

theorem Twins.inodeFreed (twins : Twins drive skip fs other) (ino : Nat) :
    Twins drive skip (fs.inodeFreed ino) (other.inodeFreed ino) := by
  have left := inodeFreed_released fs ino
  have right := inodeFreed_released other ino
  have leftFewer (number : Nat) (still : (fs.inodeFreed ino).allocated number) : fs.allocated number :=
    ((allocated_inodeFreed fs ino number).mp still).1
  have rightFewer (number : Nat) (still : (other.inodeFreed ino).allocated number) : other.allocated number :=
    ((allocated_inodeFreed other ino number).mp still).1
  refine ⟨twins.left.of_copies (twins.left.toMounted.released left leftFewer) (.released left drive)
      (magic_free (by decide)),
    twins.right.of_copies (twins.right.toMounted.released right rightFewer) (.released right drive)
      (magic_free (by decide)), ?_, ?_, twins.blockBitmap, twins.sectors⟩
  · simp only [Diskfs.inodeFreed, twins.superblock]
  · simp only [Diskfs.inodeFreed, twins.inodeBitmap]

theorem Twins.freeBlock (twins : Twins drive skip fs other) (block : Word) :
    Option.Rel (Twins drive skip) (fs.freeBlock block) (other.freeBlock block) := by
  have freed := twins.blockFreed block.toNat
  simp only [Diskfs.blockFreed, twins.superblock] at freed
  rw [Diskfs.freeBlock, Diskfs.freeBlock, twins.superblock]
  split
  · exact .some twins
  split
  · exact .none
  · exact .some freed

theorem Twins.freeInode (twins : Twins drive skip fs other) (ino : Word) :
    Option.Rel (Twins drive skip) (fs.freeInode ino) (other.freeInode ino) := by
  have freed := twins.inodeFreed ino.toNat
  simp only [Diskfs.inodeFreed, twins.superblock] at freed
  rw [Diskfs.freeInode, Diskfs.freeInode, twins.superblock]
  split
  · exact .some twins
  split
  · exact .none
  · exact .some freed

/-- The blocks of two copies of a record are given back alike. -/
theorem Twins.freeBlocks (twins : Twins drive skip fs other) {inode later : Inode}
    (same : Bytes.Same inode later 0 128) :
    Option.Rel (Twins drive skip) (fs.freeBlocks inode) (other.freeBlocks later) := by
  have small : ∀ index ∈ List.range directBlocks, later.block index = inode.block index := by
    intro index member
    have bound : index < 12 := List.mem_range.mp member
    exact same.word (Nat.zero_le _) (by omega)
  rw [Diskfs.freeBlocks, Diskfs.freeBlocks]
  generalize List.range directBlocks = indices at small
  induction indices generalizing fs other with
  | nil => exact .some twins
  | cons index rest ih =>
    rw [List.foldlM_cons, List.foldlM_cons, small index List.mem_cons_self]
    have tail : ∀ place ∈ rest, later.block place = inode.block place :=
      fun place member => small place (List.mem_cons_of_mem _ member)
    refine rel_bind ?_ fun left right states => ih states tail
    split
    · exact twins.freeBlock _
    · exact .some twins

end Release

section Create

variable {fs other : Diskfs} {drive : Byte} {parentIno ino : Word}

/-- The record that `read_inode` returns ends as the next slot begins. -/
def InStep (fs : Diskfs) (drive : Byte) (ino : Word) : Prop :=
  ino.toNat % 4 ≠ 3 ∧ ∀ place < 8, fs.record drive ino (128 + place) = fs.onDisk drive (ino.toNat + 1) place

theorem Twins.record_whole {skip : Nat → Prop} (twins : Twins drive skip fs other) (valid : ino.toNat < maxInodes)
    (kept : ¬ skip ino.toNat) (left : fs.InStep drive ino) (right : other.InStep drive ino) :
    Bytes.Same (fs.record drive ino) (other.record drive ino) 0 Inode.bytes := by
  intro place lower upper
  by_cases inside : place < 128
  · exact twins.record valid left.1 kept place lower inside
  · rw [Inode.bytes] at upper
    obtain ⟨lane, small, rfl⟩ : ∃ lane < 8, place = 128 + lane := ⟨place - 128, by omega, by omega⟩
    rw [right.2 lane small, twins.onDisk, left.2 lane small]

/-- The two records that a new entry writes leave every copy in step: that of
`ino` begins a file and that of the directory is written after it. -/
structure EntryInStep (fs : Diskfs) (drive : Byte) (parentIno ino type created : Word) : Prop where
  slot : ino.toNat % 4 ≠ 3
  next : fs.NextKept drive (fun number => number = parentIno.toNat) ino.toNat (Inode.fresh type parentIno created)
  parent : parentIno ≠ ino → fs.InStep drive parentIno ∧ LeadsBehind (fs.onDisk drive parentIno.toNat) 161
  follows : ino.toNat = parentIno.toNat + 1 → fs.cached ino ≠ none →
    ∀ place < 8, fs.record drive parentIno (128 + place) = Inode.fresh type parentIno created place

/-- The record of the directory when its entry is written. -/
theorem entered_record {i : Nat} (hit : fs.cached parentIno = some i) (type created : Word) :
    (fs.entered drive ino parentIno type created).record drive parentIno =
      if parentIno = ino then Inode.fresh type parentIno created else fs.record drive parentIno := by
  split
  · next same =>
    subst same
    have taken : (fs.inodeTaken parentIno.toNat).cached parentIno = some i := hit
    have still : (fs.entered drive parentIno parentIno type created).cached parentIno = some i := hit
    rw [record_of_hit still]
    simp only [entered, inodeWritten, taken, Function.update_self]
  · next differ => exact record_entered hit differ type created

theorem EntryInStep.entered (fits : fs.EntryInStep drive parentIno ino type created)
    (valid : ino.toNat < maxInodes) {i : Nat} (hit : fs.cached parentIno = some i) :
    (fs.entered drive ino parentIno type created).NextKept drive
      (fun number => number = parentIno.toNat ∧ number ≠ ino.toNat) parentIno.toNat
      ((fs.entered drive ino parentIno type created).record drive parentIno) := by
  intro j bound present number _ place small
  rw [entered_record hit]
  by_cases own : parentIno = ino
  · subst own
    rw [if_pos rfl, Diskfs.entered, onDisk_inodeWritten_other valid fits.slot _ (by omega) (by omega),
      if_pos ⟨rfl, small⟩]
  have apart : parentIno.toNat ≠ ino.toNat := fun same => own (BitVec.eq_of_toNat_eq same)
  rw [if_neg own]
  by_cases follows : ino.toNat = parentIno.toNat + 1
  · have cached : fs.cached ino ≠ none := by
      intro miss
      have same : fs.inodeCacheNum j = ino := BitVec.eq_of_toNat_eq (number.trans follows.symm)
      exact of_not_cached miss bound present same
    rw [fits.follows follows cached place small, ← follows]
    exact (onDisk_inodeWritten_self valid _ place (Nat.zero_le _) (by rw [Inode.bytes]; omega)).symm
  · rw [(fits.parent own).1.2 place small, Diskfs.entered,
      onDisk_inodeWritten_other valid fits.slot _ (by omega) (by omega), if_neg (by omega)]
    rfl

theorem Twins.entered (twins : Twins drive (fun _ => False) fs other) (valid : ino.toNat < maxInodes)
    (left : fs.EntryInStep drive parentIno ino type created) (right : other.EntryInStep drive parentIno ino type created) :
    Twins drive (fun number => number = parentIno.toNat ∧ number ≠ ino.toNat)
      (fs.entered drive ino parentIno type created) (other.entered drive ino parentIno type created) := by
  have taken : Twins drive (fun number => number = parentIno.toNat) (fs.inodeTaken ino.toNat) (other.inodeTaken ino.toNat) :=
    (twins.imp fun _ impossible => False.elim impossible).inodeTaken valid left.slot
  exact taken.inodeWritten valid left.slot (.refl _ _ _) left.next right.next

theorem Twins.createEntry (twins : Twins drive (fun _ => False) fs other) (valid : parentIno.toNat < maxInodes)
    {type created : Word} {i j : Nat} (hit : fs.cached parentIno = some i) (otherHit : other.cached parentIno = some j)
    (left : ∀ ino : Word, fs.NextInode ino.toNat → fs.EntryInStep drive parentIno ino type created)
    (right : ∀ ino : Word, other.NextInode ino.toNat → other.EntryInStep drive parentIno ino type created)
    (size : Word) (name : CString) (written : Word) :
    Lockstep (Twins drive fun _ => False) (fs.createEntry parentIno size name type created written)
      (other.createEntry parentIno size name type created written) := by
  have parentSlot : parentIno.toNat % 4 ≠ 3 := by
    obtain ⟨bound, present, number⟩ := of_cached hit
    rw [← number]
    exact (twins.left.numbers i bound present).2
  have both := twins.allocInode
  rw [Diskfs.createEntry, Diskfs.createEntry]
  rcases allocInode_spec twins.left.totalInodes with ⟨_, full⟩ | ⟨number, bound, free, before, taken⟩
  · rcases allocInode_spec twins.right.totalInodes with ⟨_, otherFull⟩ | ⟨another, _, _, _, otherTaken⟩
    · rw [full, otherFull]
      exact .answered _ twins
    · rw [full, otherTaken] at both
      have impossible : (-1 : Int) = another := Option.some.inj both
      omega
  rcases allocInode_spec twins.right.totalInodes with ⟨_, otherFull⟩ | ⟨another, _, otherFree, otherBefore, otherTaken⟩
  · rw [taken, otherFull] at both
    have impossible : (number : Int) = -1 := Option.some.inj both
    omega
  obtain rfl : number = another := by
    rw [taken, otherTaken] at both
    exact Int.ofNat.inj (Option.some.inj both)
  have limit : number < 512 := bound
  obtain ⟨ino, rfl⟩ : ∃ ino : Word, ino.toNat = number := by
    refine ⟨BitVec.ofNat 32 number, ?_⟩
    rw [BitVec.toNat_ofNat]
    omega
  have leftFits := left ino ⟨bound, free, before⟩
  have rightFits := right ino ⟨bound, otherFree, otherBefore⟩
  have place : BitVec.ofInt 32 (ino.toNat : Int) = ino := by simp
  have store := @writeInode_eq (fs.inodeTaken ino.toNat) drive ino twins.left.working bound
    (Inode.fresh type parentIno created)
  have otherStore := @writeInode_eq (other.inodeTaken ino.toNat) drive ino twins.right.working bound
    (Inode.fresh type parentIno created)
  have mountedDrive : (fs.inodeTaken ino.toNat).mountedDrive = drive := twins.left.mounted
  have otherDrive : (other.inodeTaken ino.toNat).mountedDrive = drive := twins.right.mounted
  rw [if_neg leftFits.slot] at store otherStore
  rw [taken, otherTaken]
  simp only [Option.bind_eq_bind, Option.bind_some]
  rw [if_neg (by omega), if_neg (by omega), place, mountedDrive, otherDrive, store, otherStore]
  simp only [Option.bind_some]
  rw [if_neg (by simp), if_neg (by simp)]
  have whole : Bytes.Same ((fs.entered drive ino parentIno type created).record drive parentIno)
      ((other.entered drive ino parentIno type created).record drive parentIno) 0 Inode.bytes := by
    rw [entered_record hit, entered_record otherHit]
    split
    · exact .refl _ _ _
    · next differ =>
      exact twins.record_whole valid (fun impossible => impossible) (leftFits.parent differ).1 (rightFits.parent differ).1
  have leads : LeadsBehind ((fs.entered drive ino parentIno type created).record drive parentIno) 161 := by
    rw [entered_record hit]
    split
    · intro index inside nonzero
      exact absurd (fresh_block type parentIno created inside) nonzero
    · next differ =>
      exact (leftFits.parent differ).2.of_same (twins.left.record valid parentSlot fun impossible => impossible)
  have rightNext : (other.entered drive ino parentIno type created).NextKept drive
      (fun number => number = parentIno.toNat ∧ number ≠ ino.toNat) parentIno.toNat
      ((fs.entered drive ino parentIno type created).record drive parentIno) := by
    intro k inside present cached kept lane small
    rw [← whole _ (Nat.zero_le _) (by rw [Inode.bytes]; omega)]
    exact rightFits.entered bound otherHit k inside present cached kept lane small
  refine Lockstep.bind ((twins.entered bound leftFits rightFits).write valid parentSlot (fun _ skipped => skipped.1) whole
    leads (leftFits.entered bound hit) rightNext _ _ _ _) ?_
  intro ret s t states
  simp only
  by_cases failed : ret < 0
  · rw [if_pos failed, if_pos failed]
    exact rel_bind (states.freeInode ino) fun _ _ freed => Lockstep.answered _ freed
  · rw [if_neg failed, if_neg failed]
    exact .answered _ states.sync

/-- The records that `diskfs_create` writes leave every copy in step. -/
def CreateInStep (fs : Diskfs) (drive : Byte) (junk : Nat → Dirent) (parentIno : Word) (name : CString)
    (type created : Word) : Prop :=
  name.bytes.length < maxFilename → parentIno.toNat < maxInodes → (fs.onDisk drive parentIno.toNat).type = typeDir →
    LeadsBehind (fs.onDisk drive parentIno.toNat) 33 ∧
      ∀ found after, fs.lookup junk parentIno name = some (found, after) → found < 0 →
        ∀ ino : Word, fs.NextInode ino.toNat → (fs.inodeLoaded drive parentIno).EntryInStep drive parentIno ino type created

theorem EntryInStep.retime (fits : fs.EntryInStep drive parentIno ino type created) (transfers : Nat) :
    (fs.retime transfers).EntryInStep drive parentIno ino type created :=
  ⟨fits.slot, fits.next, fits.parent, fits.follows⟩

/-- What the condition gives when `diskfs_create` gets to the new entry. -/
theorem CreateInStep.entries {junk : Nat → Dirent} {name : CString} {type created : Word}
    (fits : fs.CreateInStep drive junk parentIno name type created) (mounted : Mounted fs drive)
    (short : name.bytes.length < maxFilename) (valid : parentIno.toNat < maxInodes) (slot : parentIno.toNat % 4 ≠ 3)
    (directory : (fs.onDisk drive parentIno.toNat).type = typeDir) {first second : Nat} {found : Int} {mid : Diskfs}
    (look : ((fs.inodeLoaded drive parentIno).retime first).lookup junk parentIno name = some (found, mid))
    (missing : found < 0) (number : Word)
    (next : ((fs.inodeLoaded drive parentIno).retime second).NextInode number.toNat) :
    ((fs.inodeLoaded drive parentIno).retime second).EntryInStep drive parentIno number type created := by
  have loaded := inodeLoaded_cacheOnly fs drive parentIno
  have answer := lookup_loaded mounted valid slot junk name first
  rw [look] at answer
  obtain ⟨⟨original, last⟩, lookup, equal⟩ := Option.map_eq_some_iff.mp answer.symm
  simp only at equal
  subst equal
  have before : fs.NextInode number.toNat := by
    rw [NextInode, ← loaded.inodeBitmap]
    exact next
  exact ((fits short valid directory).2 original last lookup missing number before).retime second

theorem Twins.create (twins : Twins drive (fun _ => False) fs other) {junk : Nat → Dirent} {name : CString}
    {type created : Word} (left : fs.CreateInStep drive junk parentIno name type created)
    (right : other.CreateInStep drive junk parentIno name type created) (written : Word) :
    Lockstep (Twins drive fun _ => False) (fs.create junk parentIno name type created written)
      (other.create junk parentIno name type created written) := by
  rw [Diskfs.create, Diskfs.create, if_neg twins.left.drive_ne, if_neg twins.right.drive_ne, twins.left.mounted,
    twins.right.mounted]
  by_cases long : maxFilename ≤ name.bytes.length
  · rw [if_pos long, if_pos long]
    exact .answered _ twins
  rw [if_neg long, if_neg long]
  by_cases beyond : maxInodes ≤ parentIno.toNat
  · rw [Diskfs.readInode, Diskfs.readInode, if_pos beyond, if_pos beyond]
    exact .answered _ twins
  have valid : parentIno.toNat < maxInodes := by omega
  by_cases slot : parentIno.toNat % 4 = 3
  · rw [twins.left.readInode_last valid slot, twins.right.readInode_last valid slot]
    exact .none
  obtain ⟨first, load⟩ := readInode_eq twins.left.toMounted valid slot
  obtain ⟨second, otherLoad⟩ := readInode_eq twins.right.toMounted valid slot
  have stored := twins.left.record valid slot fun impossible => impossible
  have records := twins.record valid slot fun impossible => impossible
  have typeSame : (other.record drive parentIno).type = (fs.record drive parentIno).type :=
    records.word (Nat.zero_le _) (by decide)
  have sizeSame : (other.record drive parentIno).size = (fs.record drive parentIno).size :=
    records.word (Nat.zero_le _) (by decide)
  have loaded := (twins.inodeLoaded valid slot).retime first second
  rw [load, otherLoad]
  simp only [Option.bind_eq_bind, Option.bind_some, typeSame, sizeSame]
  by_cases directory : (fs.record drive parentIno).type = typeDir
  · have onDisk : (fs.onDisk drive parentIno.toNat).type = typeDir := by
      rw [← directory]
      exact (stored.word (Nat.zero_le _) (by decide)).symm
    have otherOnDisk : (other.onDisk drive parentIno.toNat).type = typeDir := by
      rw [twins.onDisk]
      exact onDisk
    have table : ((fs.inodeLoaded drive parentIno).retime first).onDisk drive = fs.onDisk drive :=
      (inodeLoaded_cacheOnly fs drive parentIno).onDisk drive
    rw [if_neg (not_not.mpr directory), if_neg (not_not.mpr directory)]
    have both := @Twins.lookup _ _ _ _ parentIno loaded (fun impossible => impossible)
      (fun _ _ => table ▸ (left (by omega) valid onDisk).1) junk name
    rcases rel_cases both with ⟨look, otherLook⟩ | ⟨⟨found, mid⟩, ⟨same, otherMid⟩, look, otherLook, equal, states⟩
    · rw [look, otherLook]
      exact .none
    simp only at equal
    subst equal
    rw [look, otherLook]
    simp only [Option.bind_some]
    by_cases present : 0 ≤ same
    · rw [if_pos present, if_pos present]
      exact .answered _ states
    rw [if_neg present, if_neg present]
    obtain ⟨⟨one, leftState⟩, _⟩ := lookup_state ((twins.left.toMounted.inodeLoaded parentIno).retime first) valid slot look
    obtain ⟨⟨two, rightState⟩, _⟩ :=
      lookup_state ((twins.right.toMounted.inodeLoaded parentIno).retime second) valid slot otherLook
    rw [retime_inodeLoaded, twins.left.toMounted.inodeLoaded_twice] at leftState
    rw [retime_inodeLoaded, twins.right.toMounted.inodeLoaded_twice] at rightState
    obtain ⟨i, hit, _⟩ := twins.left.toMounted.cached_inodeLoaded parentIno
    obtain ⟨j, otherHit, _⟩ := twins.right.toMounted.cached_inodeLoaded parentIno
    have leftEntries := fun number => @CreateInStep.entries _ _ _ _ _ _ _ left twins.left.toMounted (by omega) valid slot
      onDisk first one same mid look (by omega) number
    have rightEntries := fun number => @CreateInStep.entries _ _ _ _ _ _ _ right twins.right.toMounted (by omega) valid
      slot otherOnDisk second two same otherMid otherLook (by omega) number
    rw [leftState, rightState]
    exact ((twins.inodeLoaded valid slot).retime one two).createEntry valid hit otherHit leftEntries rightEntries _ _ _
  · rw [if_pos directory, if_pos directory]
    exact .answered _ loaded

end Create

section Delete

variable {fs other after : Diskfs} {drive : Byte} {parentIno ino : Word}

theorem InStep.of_copies (inStep : fs.InStep drive ino) (valid : ino.toNat < maxInodes)
    (same : SameCopies fs after drive) : after.InStep drive ino := by
  have limit : ino.toNat < 512 := valid
  have slot := inStep.1
  refine ⟨slot, ?_⟩
  rw [same.record valid, same.onDisk (by rw [maxInodes]; omega)]
  exact inStep.2

theorem InStep.loaded (inStep : fs.InStep drive ino) (mounted : Mounted fs drive) (transfers : Nat) :
    ((fs.inodeLoaded drive ino).retime transfers).InStep drive ino := by
  have table : ((fs.inodeLoaded drive ino).retime transfers).onDisk drive = fs.onDisk drive :=
    (inodeLoaded_cacheOnly fs drive ino).onDisk drive
  have copy : ((fs.inodeLoaded drive ino).retime transfers).record drive ino = fs.record drive ino :=
    mounted.record_inodeLoaded ino
  refine ⟨inStep.1, ?_⟩
  rw [copy, table]
  exact inStep.2

/-- `diskfs_write` through copies that are in step. -/
theorem Twins.write_inStep (twins : Twins drive (fun _ => False) fs other) (valid : ino.toNat < maxInodes)
    (left : fs.InStep drive ino) (right : other.InStep drive ino) (leads : LeadsBehind (fs.onDisk drive ino.toNat) 161)
    (source : Bytes) (offset size now : Word) :
    Lockstep (Twins drive fun _ => False) (fs.write ino source offset size now)
      (other.write ino source offset size now) := by
  have whole := twins.record_whole valid (fun impossible => impossible) left right
  refine twins.write valid left.1 (fun _ impossible => False.elim impossible) whole
    (leads.of_same (twins.left.record valid left.1 fun impossible => impossible)) ?_ ?_ source offset size now
  · intro _ _ _ _ _ place small
    exact left.2 place small
  · intro _ _ _ _ _ place small
    rw [twins.onDisk]
    exact left.2 place small

theorem Twins.clearLoop (twins : Twins drive (fun _ => False) fs other) (valid : parentIno.toNat < maxInodes)
    (loaded : fs.inodeLoaded drive parentIno = fs) (otherLoaded : other.inodeLoaded drive parentIno = other)
    (left : fs.InStep drive parentIno) (right : other.InStep drive parentIno)
    (leads : LeadsBehind (fs.onDisk drive parentIno.toNat) 161) (scrap : Nat → Dirent) (ino now : Word) (turns i : Nat) :
    Option.Rel (Twins drive fun _ => False) (clearLoop scrap parentIno ino now turns fs i)
      (clearLoop scrap parentIno ino now turns other i) := by
  induction turns generalizing fs other i with
  | zero => exact .some twins
  | succ turns ih =>
    rw [Diskfs.clearLoop, Diskfs.clearLoop]
    rcases rel_cases (@Twins.read _ _ _ _ parentIno twins (fun impossible => impossible)
      (fun _ => leads.earlier (by decide)) (scrap i) (BitVec.ofNat 32 (i * Dirent.bytes)) (BitVec.ofNat 32 Dirent.bytes)) with
      ⟨read, otherRead⟩ | ⟨⟨ret, entry, mid⟩, ⟨otherRet, otherEntry, otherMid⟩, read, otherRead, _, same, states⟩
    · rw [read, otherRead]
      exact .none
    simp only at same states
    subst same
    obtain ⟨first, rfl⟩ := read_of_loaded twins.left.toMounted valid left.1 loaded read
    obtain ⟨second, rfl⟩ := read_of_loaded twins.right.toMounted valid left.1 otherLoaded otherRead
    have midLeft := left.of_copies valid (.retime fs drive first)
    have midRight := right.of_copies valid (.retime other drive second)
    rw [read, otherRead]
    simp only [Option.bind_eq_bind, Option.bind_some]
    split
    · apply rel_bind (states.write_inStep valid midLeft midRight leads _ _ _ _)
      rintro ⟨_, s⟩ ⟨_, t⟩ ⟨_, cleared⟩
      exact .some cleared
    · exact ih states (by rw [retime_inodeLoaded, loaded]) (by rw [retime_inodeLoaded, otherLoaded]) midLeft midRight
        leads (i + 1)

theorem freeBlock_released {block : Word} (call : fs.freeBlock block = some after) : Released fs after := by
  rw [freeBlock] at call
  split at call
  · rw [← Option.some.inj call]
    exact .refl fs
  split at call
  · cases call
  · rw [← Option.some.inj call]
    exact blockFreed_released fs block.toNat

theorem freeInode_released (call : fs.freeInode ino = some after) : Released fs after := by
  rw [freeInode] at call
  split at call
  · rw [← Option.some.inj call]
    exact .refl fs
  split at call
  · cases call
  · rw [← Option.some.inj call]
    exact inodeFreed_released fs ino.toNat

theorem freeBlocks_released {inode : Inode} (call : fs.freeBlocks inode = some after) : Released fs after := by
  rw [freeBlocks] at call
  generalize List.range directBlocks = indices at call
  induction indices generalizing fs with
  | nil =>
    rw [← Option.some.inj call]
    exact .refl fs
  | cons index rest ih =>
    rw [List.foldlM_cons] at call
    obtain ⟨mid, turn, call⟩ := Option.bind_eq_some_iff.mp call
    split at turn
    · exact (freeBlock_released turn).trans (ih call)
    · rw [← Option.some.inj turn] at call
      exact ih call

theorem Twins.deleteInode (twins : Twins drive (fun _ => False) fs other) (valid : parentIno.toNat < maxInodes)
    {inode later : Inode} (same : Bytes.Same inode later 0 128) (left : fs.InStep drive parentIno)
    (right : other.InStep drive parentIno) (leads : LeadsBehind (fs.onDisk drive parentIno.toNat) 161)
    (scrap : Nat → Dirent) (now : Word) :
    Lockstep (Twins drive fun _ => False) (fs.deleteInode scrap parentIno ino inode now)
      (other.deleteInode scrap parentIno ino later now) := by
  rw [Diskfs.deleteInode, Diskfs.deleteInode]
  rcases rel_cases (twins.freeBlocks same) with ⟨blocks, otherBlocks⟩ | ⟨mid, otherMid, blocks, otherBlocks, midTwins⟩
  · rw [blocks, otherBlocks]
    exact .none
  rw [blocks, otherBlocks]
  simp only [Option.bind_eq_bind, Option.bind_some]
  rcases rel_cases (midTwins.freeInode ino) with ⟨inodes, otherInodes⟩ | ⟨freed, otherFreed, inodes, otherInodes, freedTwins⟩
  · rw [inodes, otherInodes]
    exact .none
  have leftCopies := SameCopies.released ((freeBlocks_released blocks).trans (freeInode_released inodes)) drive
  have rightCopies := SameCopies.released ((freeBlocks_released otherBlocks).trans (freeInode_released otherInodes)) drive
  have freedLeft := left.of_copies valid leftCopies
  have freedRight := right.of_copies valid rightCopies
  obtain ⟨first, load⟩ := readInode_eq freedTwins.left.toMounted valid left.1
  obtain ⟨second, otherLoad⟩ := readInode_eq freedTwins.right.toMounted valid left.1
  have records := freedTwins.record valid left.1 fun impossible => impossible
  have size : (otherFreed.record drive parentIno).size = (freed.record drive parentIno).size :=
    records.word (Nat.zero_le _) (by decide)
  have table : ((freed.inodeLoaded drive parentIno).retime first).onDisk drive parentIno.toNat =
      fs.onDisk drive parentIno.toNat := by
    rw [← leftCopies.onDisk valid]
    exact congrFun ((inodeLoaded_cacheOnly freed drive parentIno).onDisk drive) _
  rw [inodes, otherInodes]
  simp only [Option.bind_some]
  rw [freedTwins.left.mounted, freedTwins.right.mounted, load, otherLoad]
  simp only [Option.bind_some, size]
  refine rel_bind (((freedTwins.inodeLoaded valid left.1).retime first second).clearLoop valid ?_ ?_
    (freedLeft.loaded freedTwins.left.toMounted first) (freedRight.loaded freedTwins.right.toMounted second)
    (table ▸ leads) scrap ino now _ 0) fun _ _ cleared => Lockstep.answered _ cleared.sync
  · rw [retime_inodeLoaded, freedTwins.left.toMounted.inodeLoaded_twice]
  · rw [retime_inodeLoaded, freedTwins.right.toMounted.inodeLoaded_twice]

/-- The record that `diskfs_delete` writes when it clears the entry leaves
every copy in step. -/
def DeleteInStep (fs : Diskfs) (drive : Byte) (junk : Nat → Dirent) (parentIno : Word) (name : CString) : Prop :=
  parentIno.toNat < maxInodes → (fs.onDisk drive parentIno.toNat).type = typeDir →
    LeadsBehind (fs.onDisk drive parentIno.toNat) 33 ∧
      ∀ found after, fs.lookup junk parentIno name = some (found, after) → 0 ≤ found →
        (BitVec.ofInt 32 found).toNat < maxInodes →
        ¬ ((fs.onDisk drive (BitVec.ofInt 32 found).toNat).type = typeDir ∧
          (fs.onDisk drive (BitVec.ofInt 32 found).toNat).size > 0) →
        (after.inodeLoaded drive (BitVec.ofInt 32 found)).InStep drive parentIno ∧
          LeadsBehind (fs.onDisk drive parentIno.toNat) 161

/-- A lookup that finds something has found it in a directory. -/
theorem Durable.found (durable : Durable fs drive fun _ => False) {junk : Nat → Dirent} {name : CString} {found : Int}
    (call : fs.lookup junk parentIno name = some (found, after)) (positive : 0 ≤ found) :
    parentIno.toNat < maxInodes ∧ (fs.onDisk drive parentIno.toNat).type = typeDir ∧
      after.onDisk drive = fs.onDisk drive := by
  by_cases beyond : maxInodes ≤ parentIno.toNat
  · rw [lookup, if_neg durable.drive_ne, readInode, if_pos beyond] at call
    have missing := (Prod.mk.inj (Option.some.inj call)).1
    omega
  have valid : parentIno.toNat < maxInodes := by omega
  by_cases slot : parentIno.toNat % 4 = 3
  · rw [lookup, if_neg durable.drive_ne, durable.mounted, durable.readInode_last valid slot] at call
    cases call
  obtain ⟨⟨transfers, state⟩, directory⟩ := lookup_state durable.toMounted valid slot call
  have stored := durable.record valid slot fun impossible => impossible
  refine ⟨valid, ?_, ?_⟩
  · rw [← (directory positive).1]
    exact (stored.word (Nat.zero_le _) (by decide)).symm
  · rw [state]
    exact (inodeLoaded_cacheOnly fs drive parentIno).onDisk drive

theorem Twins.delete (twins : Twins drive (fun _ => False) fs other) {junk : Nat → Dirent} {name : CString}
    (left : fs.DeleteInStep drive junk parentIno name) (right : other.DeleteInStep drive junk parentIno name)
    (scrap : Nat → Dirent) (now : Word) :
    Lockstep (Twins drive fun _ => False) (fs.delete junk scrap parentIno name now)
      (other.delete junk scrap parentIno name now) := by
  rw [Diskfs.delete, Diskfs.delete, if_neg twins.left.drive_ne, if_neg twins.right.drive_ne]
  have look := @Twins.lookup _ _ _ _ parentIno twins (fun impossible => impossible)
    (fun valid directory => (left valid directory).1) junk name
  rcases rel_cases look with ⟨lookup, otherLookup⟩ | ⟨⟨found, mid⟩, ⟨same, otherMid⟩, lookup, otherLookup, equal, states⟩
  · rw [lookup, otherLookup]
    exact .none
  simp only at equal states
  subst equal
  rw [lookup, otherLookup]
  simp only [Option.bind_eq_bind, Option.bind_some]
  by_cases missing : same < 0
  · rw [if_pos missing, if_pos missing]
    exact .answered _ states
  rw [if_neg missing, if_neg missing, states.left.mounted, states.right.mounted]
  obtain ⟨valid, directory, table⟩ := twins.left.found lookup (by omega)
  have leftStep := (left valid directory).2 same mid lookup (by omega)
  have rightStep := (right valid (by rw [twins.onDisk]; exact directory)).2 same otherMid otherLookup (by omega)
  rw [twins.onDisk] at rightStep
  generalize BitVec.ofInt 32 same = ino at leftStep rightStep ⊢
  by_cases beyond : maxInodes ≤ ino.toNat
  · rw [Diskfs.readInode, Diskfs.readInode, if_pos beyond, if_pos beyond]
    exact .answered _ states
  have inside : ino.toNat < maxInodes := by omega
  by_cases slot : ino.toNat % 4 = 3
  · rw [states.left.readInode_last inside slot, states.right.readInode_last inside slot]
    exact .none
  obtain ⟨first, load⟩ := readInode_eq states.left.toMounted inside slot
  obtain ⟨second, otherLoad⟩ := readInode_eq states.right.toMounted inside slot
  have stored : Bytes.Same (fs.onDisk drive ino.toNat) (mid.record drive ino) 0 128 := by
    rw [← table]
    exact states.left.record inside slot fun impossible => impossible
  have records := states.record inside slot fun impossible => impossible
  have otherStored := stored.trans records
  have type : (mid.record drive ino).type = (fs.onDisk drive ino.toNat).type := stored.word (Nat.zero_le _) (by decide)
  have size : (mid.record drive ino).size = (fs.onDisk drive ino.toNat).size := stored.word (Nat.zero_le _) (by decide)
  have otherType : (otherMid.record drive ino).type = (fs.onDisk drive ino.toNat).type :=
    otherStored.word (Nat.zero_le _) (by decide)
  have otherSize : (otherMid.record drive ino).size = (fs.onDisk drive ino.toNat).size :=
    otherStored.word (Nat.zero_le _) (by decide)
  have loaded := (states.inodeLoaded inside slot).retime first second
  rw [load, otherLoad]
  simp only [Option.bind_some, type, size, otherType, otherSize]
  by_cases refused : (fs.onDisk drive ino.toNat).type = typeDir ∧ (fs.onDisk drive ino.toNat).size > 0
  · rw [if_pos refused, if_pos refused]
    exact .answered _ loaded
  rw [if_neg refused, if_neg refused]
  obtain ⟨leftInStep, leads⟩ := leftStep inside refused
  have lastTable : ((mid.inodeLoaded drive ino).retime first).onDisk drive = fs.onDisk drive := by
    rw [← table]
    exact (inodeLoaded_cacheOnly mid drive ino).onDisk drive
  exact loaded.deleteInode valid records (leftInStep.of_copies valid (.retime _ drive first))
    ((rightStep inside refused).1.of_copies valid (.retime _ drive second)) (lastTable ▸ leads) scrap now

end Delete

end MexOS.Fs.Diskfs
