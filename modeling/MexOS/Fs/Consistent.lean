import MexOS.Fs.Allocator
import MexOS.Fs.InodeTable
import MexOS.Machine.Ownership

/-! Mounted states in which every allocated inode has its blocks to itself and
the cache shows the files as they are on the disk. -/

namespace MexOS.Fs

open MexOS.Machine

/-- Two records that agree on size and block pointers, which is all that
reading and writing a file looks at. -/
structure SameFile (inode other : Inode) : Prop where
  size : other.size = inode.size
  block : ∀ index < directBlocks, other.block index = inode.block index

namespace SameFile

variable {inode other third : Inode}

theorem refl (inode : Inode) : SameFile inode inode := ⟨rfl, fun _ _ => rfl⟩

theorem symm (same : SameFile inode other) : SameFile other inode :=
  ⟨same.size.symm, fun index bound => (same.block index bound).symm⟩

theorem trans (left : SameFile inode other) (right : SameFile other third) : SameFile inode third :=
  ⟨right.size.trans left.size, fun index bound => (right.block index bound).trans (left.block index bound)⟩

theorem of_bytes (same : Bytes.Same inode other 4 56) : SameFile inode other := by
  refine ⟨same.word (Nat.le_refl _) (by decide), ?_⟩
  intro index bound
  rw [directBlocks] at bound
  exact same.word (by omega) (by omega)

end SameFile

namespace Diskfs

/-- The bit of the inode is set. -/
def allocated (fs : Diskfs) (ino : Nat) : Prop := ino < maxInodes ∧ fs.inodeBitmap.test ino = true

instance (fs : Diskfs) (ino : Nat) : Decidable (fs.allocated ino) := inferInstanceAs (Decidable (_ ∧ _))

def taken (fs : Diskfs) (block : Nat) : Prop := block < maxBlocks ∧ fs.blockBitmap.test block = true

/-- The block in a pointer of an allocated inode, when `records` are the
inodes; a zero pointer holds none. -/
def holds (fs : Diskfs) (records : Nat → Inode) (slot : Nat × Nat) : Option Nat :=
  if fs.allocated slot.1 ∧ slot.2 < directBlocks ∧ (records slot.1).block slot.2 ≠ 0 then
    some ((records slot.1).block slot.2).toNat
  else none

theorem holds_eq_some {fs : Diskfs} {records : Nat → Inode} {ino index block : Nat} :
    fs.holds records (ino, index) = some block ↔
      fs.allocated ino ∧ index < directBlocks ∧ (records ino).block index ≠ 0 ∧
        ((records ino).block index).toNat = block := by
  unfold holds
  split
  · next inside => simp only [Option.some.injEq, inside, ne_eq, not_false_eq_true, true_and]
  · next outside =>
    constructor
    · intro impossible
      cases impossible
    · intro ⟨allocated, bound, nonzero, _⟩
      exact absurd ⟨allocated, bound, nonzero⟩ outside

/-- A mounted drive that works, with the totals of `diskfs_format` and no
inode cached twice. -/
structure Mounted (fs : Diskfs) (drive : Byte) : Prop where
  working : fs.ata.Working drive
  mounted : fs.mountedDrive = drive
  totalInodes : fs.superblock.totalInodes = 512
  totalBlocks : fs.superblock.totalBlocks = 65536
  slots : ∀ ino, fs.allocated ino → ino % 4 ≠ 3
  unique : ∀ i j, i < 8 → j < 8 → fs.inodeCacheValid i = true → fs.inodeCacheValid j = true →
    fs.inodeCacheNum i = fs.inodeCacheNum j → i = j

/-- The cached copies of allocated inodes, but for those to skip, are as on
the disk. -/
def Coherent (fs : Diskfs) (drive : Byte) (skip : Nat → Prop) : Prop :=
  ∀ i < 8, fs.inodeCacheValid i = true → fs.allocated (fs.inodeCacheNum i).toNat →
    ¬ skip (fs.inodeCacheNum i).toNat → SameFile (fs.onDisk drive (fs.inodeCacheNum i).toNat) (fs.inodeCache i)

structure Consistent (fs : Diskfs) (drive : Byte) : Prop extends Mounted fs drive where
  coherent : fs.Coherent drive fun _ => False
  exclusive : Exclusive (fs.holds (fs.onDisk drive)) fs.taken

/-- Consistent as soon as `inode` is written for `ino`. -/
structure Draft (fs : Diskfs) (drive : Byte) (ino : Nat) (inode : Inode) : Prop extends Mounted fs drive where
  coherent : fs.Coherent drive fun other => other = ino
  exclusive : Exclusive (fs.holds (Function.update (fs.onDisk drive) ino inode)) fs.taken

/-- Only the number of transfers changes. -/
def retime (fs : Diskfs) (transfers : Nat) : Diskfs := { fs with ata := { fs.ata with transfers } }

section Retime

variable {fs : Diskfs} {drive : Byte} {ino : Nat} {inode : Inode}

theorem Mounted.retime (mounted : Mounted fs drive) (transfers : Nat) : Mounted (fs.retime transfers) drive :=
  ⟨⟨mounted.working.driveExists, mounted.working.works⟩, mounted.mounted, mounted.totalInodes, mounted.totalBlocks,
    mounted.slots, mounted.unique⟩

theorem Consistent.retime (consistent : Consistent fs drive) (transfers : Nat) :
    Consistent (fs.retime transfers) drive :=
  ⟨consistent.toMounted.retime transfers, consistent.coherent, consistent.exclusive⟩

theorem Draft.retime (draft : Draft fs drive ino inode) (transfers : Nat) :
    Draft (fs.retime transfers) drive ino inode :=
  ⟨draft.toMounted.retime transfers, draft.coherent, draft.exclusive⟩

end Retime

section Cache

variable {fs : Diskfs} {drive : Byte} {ino : Word}

theorem of_cached {i : Nat} (hit : fs.cached ino = some i) :
    i < 8 ∧ fs.inodeCacheValid i = true ∧ fs.inodeCacheNum i = ino := by
  have found := List.find?_some hit
  have member := List.mem_of_find?_eq_some hit
  simp only [Bool.and_eq_true, beq_iff_eq] at found
  exact ⟨List.mem_range.mp member, found⟩

theorem of_not_cached (miss : fs.cached ino = none) {i : Nat} (bound : i < 8) (valid : fs.inodeCacheValid i = true) :
    fs.inodeCacheNum i ≠ ino := by
  intro same
  have absent := List.find?_eq_none.mp miss i (List.mem_range.mpr bound)
  simp [valid, same] at absent

theorem Mounted.cached_eq (mounted : Mounted fs drive) {i : Nat} (bound : i < 8) (valid : fs.inodeCacheValid i = true) :
    fs.cached (fs.inodeCacheNum i) = some i := by
  cases hit : fs.cached (fs.inodeCacheNum i) with
  | none => exact absurd rfl (of_not_cached hit bound valid)
  | some j =>
    obtain ⟨small, present, same⟩ := of_cached hit
    rw [mounted.unique j i small bound present valid same]

/-- What `read_inode` returns. -/
def record (fs : Diskfs) (drive : Byte) (ino : Word) : Inode :=
  match fs.cached ino with
  | some i => fs.inodeCache i
  | none => Bytes.zero.copy 0 (fs.ata.load drive (inodeSector ino) 1 Bytes.zero) (inodeOffset ino) Inode.bytes

theorem record_of_hit {i : Nat} (hit : fs.cached ino = some i) : fs.record drive ino = fs.inodeCache i := by
  simp only [record, hit]

/-- The state that `read_inode` leaves. -/
def inodeLoaded (fs : Diskfs) (drive : Byte) (ino : Word) : Diskfs :=
  match fs.cached ino with
  | some _ => fs
  | none => fs.remember ino (fs.record drive ino)

theorem readInode_works (working : fs.ata.Working drive) (valid : ino.toNat < maxInodes) (slot : ino.toNat % 4 ≠ 3) :
    ∃ transfers, fs.readInode drive ino =
      some (.ok (fs.record drive ino), (fs.inodeLoaded drive ino).retime transfers) := by
  have count : (1 : Nat) ≠ 0 := by decide
  rw [readInode, if_neg (by omega)]
  cases hit : fs.cached ino with
  | some i =>
    refine ⟨fs.ata.transfers, ?_⟩
    simp only [record, inodeLoaded, hit]
    rfl
  | none =>
    refine ⟨fs.ata.transfers + 1, ?_⟩
    simp only [working.readSectors count, record, inodeLoaded, hit]
    rw [if_neg (by simp), if_neg (slot_fits.mpr slot)]
    rfl

theorem readInode_eq (mounted : Mounted fs drive) (valid : ino.toNat < maxInodes) (slot : ino.toNat % 4 ≠ 3) :
    ∃ transfers, fs.readInode drive ino =
      some (.ok (fs.record drive ino), (fs.inodeLoaded drive ino).retime transfers) :=
  readInode_works mounted.working valid slot

theorem record_of_miss (valid : ino.toNat < maxInodes) (slot : ino.toNat % 4 ≠ 3) (miss : fs.cached ino = none) :
    Bytes.Same (fs.onDisk drive ino.toNat) (fs.record drive ino) 0 Inode.bytes := by
  intro place _ upper
  rw [Inode.bytes] at upper
  simp only [record, miss]
  rw [Bytes.copy_inside (Nat.zero_le _) (by rw [Inode.bytes]; omega),
    Ata.load_one _ _ _ _ (by rw [inodeOffset]; omega), sectorOf_inodeSector valid, onDisk, inodeOffset]
  rfl

theorem Consistent.record_sameFile (consistent : Consistent fs drive) (allocated : fs.allocated ino.toNat) :
    SameFile (fs.onDisk drive ino.toNat) (fs.record drive ino) := by
  cases hit : fs.cached ino with
  | none =>
    apply SameFile.of_bytes
    exact (record_of_miss allocated.1 (consistent.slots _ allocated) hit).narrow (by decide) (by decide)
  | some i =>
    obtain ⟨bound, valid, same⟩ := of_cached hit
    subst same
    rw [record_of_hit hit]
    exact consistent.coherent i bound valid allocated (fun impossible => impossible)

theorem Consistent.pointer_small (consistent : Consistent fs drive) (allocated : fs.allocated ino.toNat) {index : Nat}
    (bound : index < directBlocks) (nonzero : (fs.onDisk drive ino.toNat).block index ≠ 0) :
    ((fs.onDisk drive ino.toNat).block index).toNat < maxBlocks :=
  (consistent.exclusive.taken (holds_eq_some.mpr ⟨allocated, bound, nonzero, rfl⟩)).1

end Cache

section Remember

variable {fs : Diskfs} {drive : Byte} {ino : Word} {inode : Inode}

theorem Mounted.remember (mounted : Mounted fs drive) (miss : fs.cached ino = none) (inode : Inode) :
    Mounted (fs.remember ino inode) drive := by
  refine ⟨mounted.working, mounted.mounted, mounted.totalInodes, mounted.totalBlocks, mounted.slots, ?_⟩
  intro i j iBound jBound iValid jValid same
  simp only [Diskfs.remember] at iValid jValid same
  by_cases iNew : i = fs.cacheIdx.val
  · by_cases jNew : j = fs.cacheIdx.val
    · rw [iNew, jNew]
    · rw [Function.update_of_ne jNew] at jValid same
      rw [iNew, Function.update_self] at same
      exact absurd same.symm (of_not_cached miss jBound jValid)
  · rw [Function.update_of_ne iNew] at iValid same
    by_cases jNew : j = fs.cacheIdx.val
    · rw [jNew, Function.update_self] at same
      exact absurd same (of_not_cached miss iBound iValid)
    · rw [Function.update_of_ne jNew] at jValid same
      exact mounted.unique i j iBound jBound iValid jValid same

theorem Coherent.remember {skip : Nat → Prop} (coherent : fs.Coherent drive skip)
    (file : fs.allocated ino.toNat → SameFile (fs.onDisk drive ino.toNat) inode) :
    (fs.remember ino inode).Coherent drive skip := by
  intro i bound valid allocated kept
  simp only [Diskfs.remember] at valid allocated kept ⊢
  by_cases new : i = fs.cacheIdx.val
  · subst new
    simp only [Function.update_self] at allocated ⊢
    exact file allocated
  · simp only [Function.update_of_ne new] at valid allocated kept ⊢
    exact coherent i bound valid allocated kept

theorem Mounted.cached_remember (mounted : Mounted fs drive) (miss : fs.cached ino = none) (inode : Inode) :
    (fs.remember ino inode).cached ino = some fs.cacheIdx.val := by
  have hit := (mounted.remember miss inode).cached_eq fs.cacheIdx.isLt (Function.update_self _ _ _)
  simp only [Diskfs.remember, Function.update_self] at hit
  exact hit

end Remember

section Loaded

variable {fs : Diskfs} {drive : Byte} {ino : Word}

/-- Loading an inode changes the cache alone. -/
structure CacheOnly (fs after : Diskfs) : Prop where
  ata : after.ata = fs.ata
  superblock : after.superblock = fs.superblock
  inodeBitmap : after.inodeBitmap = fs.inodeBitmap
  blockBitmap : after.blockBitmap = fs.blockBitmap
  mountedDrive : after.mountedDrive = fs.mountedDrive

theorem inodeLoaded_cacheOnly (fs : Diskfs) (drive : Byte) (ino : Word) : CacheOnly fs (fs.inodeLoaded drive ino) := by
  unfold inodeLoaded
  split <;> exact ⟨rfl, rfl, rfl, rfl, rfl⟩

theorem CacheOnly.onDisk {after : Diskfs} (same : CacheOnly fs after) (drive : Byte) :
    after.onDisk drive = fs.onDisk drive := by
  funext ino place
  rw [Diskfs.onDisk, Diskfs.onDisk, same.ata]

theorem CacheOnly.allocated {after : Diskfs} (same : CacheOnly fs after) (ino : Nat) :
    after.allocated ino ↔ fs.allocated ino := by
  rw [Diskfs.allocated, Diskfs.allocated, same.inodeBitmap]

theorem Mounted.inodeLoaded (mounted : Mounted fs drive) (ino : Word) : Mounted (fs.inodeLoaded drive ino) drive := by
  unfold Diskfs.inodeLoaded
  cases hit : fs.cached ino with
  | some i => exact mounted
  | none => exact mounted.remember hit _

theorem Consistent.inodeLoaded (consistent : Consistent fs drive) (ino : Word) :
    Consistent (fs.inodeLoaded drive ino) drive := by
  unfold Diskfs.inodeLoaded
  cases hit : fs.cached ino with
  | some i => exact consistent
  | none =>
    exact ⟨consistent.toMounted.remember hit _, consistent.coherent.remember consistent.record_sameFile,
      consistent.exclusive⟩

theorem Mounted.cached_inodeLoaded (mounted : Mounted fs drive) (ino : Word) :
    ∃ i, (fs.inodeLoaded drive ino).cached ino = some i ∧ (fs.inodeLoaded drive ino).inodeCache i = fs.record drive ino := by
  cases hit : fs.cached ino with
  | some i =>
    have same : fs.inodeLoaded drive ino = fs := by simp only [Diskfs.inodeLoaded, hit]
    rw [same]
    exact ⟨i, hit, (record_of_hit hit).symm⟩
  | none =>
    have same : fs.inodeLoaded drive ino = fs.remember ino (fs.record drive ino) := by
      simp only [Diskfs.inodeLoaded, hit]
    rw [same]
    exact ⟨fs.cacheIdx.val, mounted.cached_remember hit _, Function.update_self _ _ _⟩

theorem Mounted.record_inodeLoaded (mounted : Mounted fs drive) (ino : Word) :
    (fs.inodeLoaded drive ino).record drive ino = fs.record drive ino := by
  obtain ⟨i, hit, same⟩ := mounted.cached_inodeLoaded ino
  rw [← same, record_of_hit hit]

theorem Mounted.inodeLoaded_twice (mounted : Mounted fs drive) (ino : Word) :
    (fs.inodeLoaded drive ino).inodeLoaded drive ino = fs.inodeLoaded drive ino := by
  obtain ⟨i, hit, _⟩ := mounted.cached_inodeLoaded ino
  rw [Diskfs.inodeLoaded, hit]

end Loaded

/-- The record that `read_inode` returns ends with the size of the next inode,
if that is allocated. -/
def Synced (fs : Diskfs) (drive : Byte) (ino : Word) : Prop :=
  fs.allocated (ino.toNat + 1) → (fs.record drive ino).word 132 = (fs.onDisk drive (ino.toNat + 1)).size

section Synced

variable {fs : Diskfs} {drive : Byte} {ino other : Word}

/-- The last word of a record lies on the size of the next one. -/
theorem onDisk_tail (fs : Diskfs) (drive : Byte) {ino : Nat} (slot : ino % 4 ≠ 3) :
    (fs.onDisk drive ino).word 132 = (fs.onDisk drive (ino + 1)).size := by
  have sector : (ino + 1) / 4 = ino / 4 := by omega
  have offset : (ino + 1) % 4 = ino % 4 + 1 := by omega
  have place (lane : Nat) : (ino % 4 + 1) * 128 + (4 + lane) = ino % 4 * 128 + (132 + lane) := by omega
  have first : (ino % 4 + 1) * 128 + 4 = ino % 4 * 128 + 132 := by omega
  simp only [Inode.size, Bytes.word, onDisk, sector, offset, place, first]

/-- Only a cached copy can be out of step. -/
theorem synced_of_miss (valid : ino.toNat < maxInodes) (slot : ino.toNat % 4 ≠ 3) (miss : fs.cached ino = none) :
    fs.Synced drive ino := by
  intro _
  rw [(record_of_miss valid slot miss).word (by decide) (by decide), onDisk_tail fs drive slot]

theorem Synced.inodeLoaded (synced : fs.Synced drive ino) (mounted : Mounted fs drive) (valid : ino.toNat < maxInodes)
    (slot : ino.toNat % 4 ≠ 3) (other : Word) : (fs.inodeLoaded drive other).Synced drive ino := by
  cases hit : fs.cached other with
  | some i =>
    have same : fs.inodeLoaded drive other = fs := by simp only [Diskfs.inodeLoaded, hit]
    rw [same]
    exact synced
  | none =>
    by_cases both : ino = other
    · subst both
      intro next
      have same := inodeLoaded_cacheOnly fs drive ino
      rw [mounted.record_inodeLoaded, same.onDisk]
      exact synced ((same.allocated _).mp next)
    · have same : fs.inodeLoaded drive other = fs.remember other (fs.record drive other) := by
        simp only [Diskfs.inodeLoaded, hit]
      rw [same]
      cases found : (fs.remember other (fs.record drive other)).cached ino with
      | none => exact synced_of_miss valid slot found
      | some i =>
        obtain ⟨bound, present, number⟩ := of_cached found
        have old : i ≠ fs.cacheIdx.val := by
          intro new
          rw [new] at number
          simp only [remember, Function.update_self] at number
          exact both number.symm
        simp only [remember, Function.update_of_ne old] at present number
        have before : fs.cached ino = some i := by
          rw [← number]
          exact mounted.cached_eq bound present
        have copy : (fs.remember other (fs.record drive other)).record drive ino = fs.record drive ino := by
          rw [record_of_hit found, record_of_hit before]
          exact Function.update_of_ne old _ _
        intro next
        rw [copy]
        exact synced next

end Synced

end Diskfs

end MexOS.Fs
