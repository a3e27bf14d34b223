import MexOS.Fs.Copies
import MexOS.Fs.Removal
import MexOS.Machine.Lockstep

/-! Mounted states that no call can tell apart: they differ in what is cached,
and in the sectors that `diskfs_sync` writes. -/

namespace MexOS.Fs.Diskfs

open MexOS.Machine

/-- The cached records are those of the table, but for inodes to skip. The
eight bytes behind a slot do not count. -/
structure Durable (fs : Diskfs) (drive : Byte) (skip : Nat → Prop) : Prop extends Mounted fs drive where
  magic : fs.superblock.magic = diskfsMagic
  numbers : ∀ i < 8, fs.inodeCacheValid i = true →
    (fs.inodeCacheNum i).toNat < maxInodes ∧ (fs.inodeCacheNum i).toNat % 4 ≠ 3
  copies : ∀ i < 8, fs.inodeCacheValid i = true → ¬ skip (fs.inodeCacheNum i).toNat →
    Bytes.Same (fs.onDisk drive (fs.inodeCacheNum i).toNat) (fs.inodeCache i) 0 128

/-- The cache and the inode table are the same. -/
structure SameCopies (fs after : Diskfs) (drive : Byte) : Prop where
  inodeCache : after.inodeCache = fs.inodeCache
  inodeCacheNum : after.inodeCacheNum = fs.inodeCacheNum
  inodeCacheValid : after.inodeCacheValid = fs.inodeCacheValid
  table : ∀ sector, 33 ≤ sector → sector < 161 → after.ata.sectors drive sector = fs.ata.sectors drive sector

namespace SameCopies

variable {fs mid after : Diskfs} {drive : Byte}

theorem trans (left : SameCopies fs mid drive) (right : SameCopies mid after drive) : SameCopies fs after drive where
  inodeCache := right.inodeCache.trans left.inodeCache
  inodeCacheNum := right.inodeCacheNum.trans left.inodeCacheNum
  inodeCacheValid := right.inodeCacheValid.trans left.inodeCacheValid
  table sector lower upper := (right.table sector lower upper).trans (left.table sector lower upper)

theorem onDisk (same : SameCopies fs after drive) {ino : Nat} (valid : ino < maxInodes) :
    after.onDisk drive ino = fs.onDisk drive ino := by
  rw [maxInodes] at valid
  funext place
  rw [Diskfs.onDisk, Diskfs.onDisk, same.table _ (by omega) (by omega)]

theorem cached (same : SameCopies fs after drive) (ino : Word) : after.cached ino = fs.cached ino := by
  simp only [Diskfs.cached, same.inodeCacheNum, same.inodeCacheValid]

theorem record (same : SameCopies fs after drive) {ino : Word} (valid : ino.toNat < maxInodes) :
    after.record drive ino = fs.record drive ino := by
  have limit : ino.toNat < 512 := valid
  have sector : after.ata.load drive (inodeSector ino) 1 Bytes.zero = fs.ata.load drive (inodeSector ino) 1 Bytes.zero := by
    funext place
    simp only [Ata.load, sectorOf_inodeSector valid]
    split
    · have first : place / 512 = 0 := by omega
      rw [first, Nat.add_zero, same.table _ (by omega) (by omega)]
    · rfl
  simp only [Diskfs.record, same.cached, same.inodeCache, sector]

theorem retime (fs : Diskfs) (drive : Byte) (transfers : Nat) : SameCopies fs (fs.retime transfers) drive :=
  ⟨rfl, rfl, rfl, fun _ _ _ => rfl⟩

theorem blockTaken (fs : Diskfs) (drive : Byte) (block : Nat) : SameCopies fs (fs.blockTaken block) drive :=
  ⟨rfl, rfl, rfl, fun _ _ _ => rfl⟩

theorem inodeTaken (fs : Diskfs) (drive : Byte) (ino : Nat) : SameCopies fs (fs.inodeTaken ino) drive :=
  ⟨rfl, rfl, rfl, fun _ _ _ => rfl⟩

theorem released (released : Released fs after) (drive : Byte) : SameCopies fs after drive :=
  ⟨released.inodeCache, released.inodeCacheNum, released.inodeCacheValid, fun _ _ _ => by rw [released.ata]⟩

theorem blockStored (fs : Diskfs) (drive : Byte) {block : Word} (behind : 161 ≤ Ata.sectorOf (dataStart + block))
    (content : Bytes) : SameCopies fs (fs.blockStored drive block content) drive := by
  refine ⟨rfl, rfl, rfl, ?_⟩
  intro sector _ upper
  exact Ata.store_outside _ _ _ _ _ (.inl (by omega))

theorem sync (mounted : Mounted fs drive) : SameCopies fs fs.sync.2 drive := by
  obtain ⟨ata, result, _, same⟩ := sync_spec mounted
  rw [result]
  exact ⟨rfl, rfl, rfl, fun sector lower _ => same sector lower⟩

end SameCopies

/-- A copy of the next inode, if there is one, begins as the record ends. -/
def NextKept (fs : Diskfs) (drive : Byte) (skip : Nat → Prop) (ino : Nat) (inode : Inode) : Prop :=
  ∀ i < 8, fs.inodeCacheValid i = true → (fs.inodeCacheNum i).toNat = ino + 1 → ¬ skip (ino + 1) →
    ∀ place < 8, inode (128 + place) = fs.onDisk drive (ino + 1) place

namespace Durable

variable {fs after : Diskfs} {drive : Byte} {skip : Nat → Prop} {ino : Word}

theorem of_copies (durable : Durable fs drive skip) (mounted : Mounted after drive) (same : SameCopies fs after drive)
    (magic : after.superblock.magic = fs.superblock.magic) : Durable after drive skip := by
  refine ⟨mounted, magic.trans durable.magic, ?_, ?_⟩
  · intro i bound valid
    rw [same.inodeCacheValid] at valid
    rw [same.inodeCacheNum]
    exact durable.numbers i bound valid
  · intro i bound valid kept
    rw [same.inodeCacheValid] at valid
    rw [same.inodeCacheNum] at kept ⊢
    rw [same.inodeCache, same.onDisk (durable.numbers i bound valid).1]
    exact durable.copies i bound valid kept

/-- Nothing is read from the last slot of a sector: a copy does not fit. -/
theorem cached_last (durable : Durable fs drive skip) (slot : ino.toNat % 4 = 3) : fs.cached ino = none := by
  cases hit : fs.cached ino with
  | none => rfl
  | some i =>
    obtain ⟨bound, valid, rfl⟩ := of_cached hit
    exact absurd slot (durable.numbers i bound valid).2

theorem readInode_last (durable : Durable fs drive skip) (valid : ino.toNat < maxInodes) (slot : ino.toNat % 4 = 3) :
    fs.readInode drive ino = none := by
  have outside : 512 < inodeOffset ino + Inode.bytes := by
    rw [inodeOffset, Inode.bytes]
    omega
  simp only [readInode, durable.cached_last slot, durable.working.readSectors Nat.one_ne_zero]
  rw [if_neg (by omega), if_neg (by simp), if_pos outside]

/-- `read_inode` returns the record in the table. -/
theorem record (durable : Durable fs drive skip) (valid : ino.toNat < maxInodes) (slot : ino.toNat % 4 ≠ 3)
    (kept : ¬ skip ino.toNat) : Bytes.Same (fs.onDisk drive ino.toNat) (fs.record drive ino) 0 128 := by
  cases hit : fs.cached ino with
  | none => exact (record_of_miss valid slot hit).narrow (Nat.le_refl _) (by decide)
  | some i =>
    obtain ⟨bound, present, rfl⟩ := of_cached hit
    rw [record_of_hit hit]
    exact durable.copies i bound present kept

theorem inodeLoaded (durable : Durable fs drive skip) (valid : ino.toNat < maxInodes) (slot : ino.toNat % 4 ≠ 3) :
    Durable (fs.inodeLoaded drive ino) drive skip := by
  have mounted := durable.toMounted.inodeLoaded ino
  have table := (inodeLoaded_cacheOnly fs drive ino).onDisk drive
  cases hit : fs.cached ino with
  | some i =>
    have unchanged : fs.inodeLoaded drive ino = fs := by simp only [Diskfs.inodeLoaded, hit]
    rw [unchanged]
    exact durable
  | none =>
    have changed : fs.inodeLoaded drive ino = fs.remember ino (fs.record drive ino) := by
      simp only [Diskfs.inodeLoaded, hit]
    refine ⟨mounted, ?_, ?_, ?_⟩
    · rw [(inodeLoaded_cacheOnly fs drive ino).superblock]
      exact durable.magic
    · rw [changed]
      intro i bound present
      simp only [remember] at present ⊢
      by_cases new : i = fs.cacheIdx.val
      · rw [new, Function.update_self]
        exact ⟨valid, slot⟩
      · rw [Function.update_of_ne new] at present ⊢
        exact durable.numbers i bound present
    · rw [table, changed]
      intro i bound present kept
      simp only [remember] at present kept ⊢
      by_cases new : i = fs.cacheIdx.val
      · rw [new, Function.update_self, Function.update_self]
        exact (record_of_miss valid slot hit).narrow (Nat.le_refl _) (by decide)
      · rw [Function.update_of_ne new] at present kept ⊢
        rw [Function.update_of_ne new]
        exact durable.copies i bound present kept

/-- `write_inode` brings the copy of its own inode up to date. -/
theorem inodeWritten (durable : Durable fs drive skip) (valid : ino.toNat < maxInodes) (slot : ino.toNat % 4 ≠ 3)
    {inode : Inode} (next : NextKept fs drive skip ino.toNat inode) :
    Durable (fs.inodeWritten drive ino inode) drive fun other => skip other ∧ other ≠ ino.toNat := by
  refine ⟨durable.toMounted.inodeWritten ino inode, durable.magic, durable.numbers, ?_⟩
  intro i bound present kept
  by_cases same : fs.inodeCacheNum i = ino
  · have hit := durable.toMounted.cached_eq bound present
    rw [same] at hit
    have copy : (fs.inodeWritten drive ino inode).inodeCache i = inode := by
      simp only [Diskfs.inodeWritten, hit, Function.update_self]
    have number : (fs.inodeWritten drive ino inode).inodeCacheNum i = ino := same
    rw [copy, number]
    exact ((onDisk_inodeWritten_self valid inode).narrow (Nat.le_refl _) (by decide)).symm
  · have differ : (fs.inodeCacheNum i).toNat ≠ ino.toNat := fun equal => same (BitVec.eq_of_toNat_eq equal)
    have counted : ¬ skip (fs.inodeCacheNum i).toNat := fun skipped => kept ⟨skipped, differ⟩
    have copy : (fs.inodeWritten drive ino inode).inodeCache i = fs.inodeCache i := by
      cases hit : fs.cached ino with
      | none => simp only [Diskfs.inodeWritten, hit]
      | some j =>
        have apart : i ≠ j := by
          rintro rfl
          exact same (of_cached hit).2.2
        simp only [Diskfs.inodeWritten, hit]
        exact Function.update_of_ne apart _ _
    have number : (fs.inodeWritten drive ino inode).inodeCacheNum i = fs.inodeCacheNum i := rfl
    rw [copy, number]
    intro place lower upper
    rw [onDisk_inodeWritten_other valid slot inode differ upper, durable.copies i bound present counted place lower upper]
    split
    · next tail =>
      rw [tail.1] at counted
      rw [next i bound present tail.1 counted place tail.2, tail.1]
    · rfl

end Durable

/-- Two states with the same superblock, bitmaps, inode table and data. -/
structure Twins (drive : Byte) (skip : Nat → Prop) (fs other : Diskfs) : Prop where
  left : Durable fs drive skip
  right : Durable other drive skip
  superblock : other.superblock = fs.superblock
  inodeBitmap : other.inodeBitmap = fs.inodeBitmap
  blockBitmap : other.blockBitmap = fs.blockBitmap
  sectors : ∀ sector, 33 ≤ sector → other.ata.sectors drive sector = fs.ata.sectors drive sector

/-- The counters lie behind the magic number. -/
theorem magic_free {superblock : Superblock} {offset : Nat} (behind : 4 ≤ offset) {value : Word} :
    Superblock.magic (superblock.setWord offset value) = superblock.magic :=
  Bytes.word_setWord_of_apart (.inl behind)

namespace Twins

variable {fs other : Diskfs} {drive : Byte} {skip : Nat → Prop} {ino : Word}

theorem onDisk (twins : Twins drive skip fs other) : other.onDisk drive = fs.onDisk drive := by
  funext ino place
  rw [Diskfs.onDisk, Diskfs.onDisk, twins.sectors _ (by omega)]

theorem load (twins : Twins drive skip fs other) {lba : Word} (behind : 33 ≤ Ata.sectorOf lba) (buffer : Bytes) :
    other.ata.load drive lba 1 buffer = fs.ata.load drive lba 1 buffer := by
  funext place
  simp only [Ata.load]
  split
  · rw [twins.sectors _ (by omega)]
  · rfl

theorem record (twins : Twins drive skip fs other) (valid : ino.toNat < maxInodes) (slot : ino.toNat % 4 ≠ 3)
    (kept : ¬ skip ino.toNat) : Bytes.Same (fs.record drive ino) (other.record drive ino) 0 128 := by
  have right := twins.right.record valid slot kept
  rw [twins.onDisk] at right
  exact (twins.left.record valid slot kept).symm.trans right

theorem retime (twins : Twins drive skip fs other) (first second : Nat) :
    Twins drive skip (fs.retime first) (other.retime second) :=
  ⟨twins.left.of_copies (twins.left.toMounted.retime first) (.retime fs drive first) rfl,
    twins.right.of_copies (twins.right.toMounted.retime second) (.retime other drive second) rfl,
    twins.superblock, twins.inodeBitmap, twins.blockBitmap, twins.sectors⟩

theorem inodeLoaded (twins : Twins drive skip fs other) (valid : ino.toNat < maxInodes) (slot : ino.toNat % 4 ≠ 3) :
    Twins drive skip (fs.inodeLoaded drive ino) (other.inodeLoaded drive ino) := by
  have left := inodeLoaded_cacheOnly fs drive ino
  have right := inodeLoaded_cacheOnly other drive ino
  refine ⟨twins.left.inodeLoaded valid slot, twins.right.inodeLoaded valid slot, ?_, ?_, ?_, ?_⟩
  · rw [left.superblock, right.superblock, twins.superblock]
  · rw [left.inodeBitmap, right.inodeBitmap, twins.inodeBitmap]
  · rw [left.blockBitmap, right.blockBitmap, twins.blockBitmap]
  · rw [left.ata, right.ata]
    exact twins.sectors

theorem blockTaken (twins : Twins drive skip fs other) (block : Nat) :
    Twins drive skip (fs.blockTaken block) (other.blockTaken block) := by
  refine ⟨twins.left.of_copies (twins.left.toMounted.blockTaken block) (.blockTaken fs drive block) (magic_free (by decide)),
    twins.right.of_copies (twins.right.toMounted.blockTaken block) (.blockTaken other drive block) (magic_free (by decide)),
    ?_, twins.inodeBitmap, ?_, twins.sectors⟩
  · simp only [Diskfs.blockTaken, twins.superblock]
  · simp only [Diskfs.blockTaken, twins.blockBitmap]

theorem inodeTaken (twins : Twins drive skip fs other) {number : Nat} (valid : number < maxInodes)
    (slot : number % 4 ≠ 3) : Twins drive skip (fs.inodeTaken number) (other.inodeTaken number) := by
  refine ⟨twins.left.of_copies (twins.left.toMounted.inodeTaken valid slot) (.inodeTaken fs drive number)
      (magic_free (by decide)),
    twins.right.of_copies (twins.right.toMounted.inodeTaken valid slot) (.inodeTaken other drive number)
      (magic_free (by decide)), ?_, ?_, twins.blockBitmap, twins.sectors⟩
  · simp only [Diskfs.inodeTaken, twins.superblock]
  · simp only [Diskfs.inodeTaken, twins.inodeBitmap]

theorem blockStored (twins : Twins drive skip fs other) {block : Word}
    (behind : 161 ≤ Ata.sectorOf (dataStart + block)) (content : Bytes) :
    Twins drive skip (fs.blockStored drive block content) (other.blockStored drive block content) := by
  refine ⟨twins.left.of_copies (twins.left.toMounted.blockStored block content) (.blockStored fs drive behind content)
      rfl,
    twins.right.of_copies (twins.right.toMounted.blockStored block content) (.blockStored other drive behind content)
      rfl,
    twins.superblock, twins.inodeBitmap, twins.blockBitmap, ?_⟩
  intro sector lower
  simp only [Diskfs.blockStored, Ata.store]
  split
  · rfl
  · exact twins.sectors sector lower

theorem inodeWritten (twins : Twins drive skip fs other) (valid : ino.toNat < maxInodes) (slot : ino.toNat % 4 ≠ 3)
    {inode later : Inode} (same : Bytes.Same inode later 0 Inode.bytes)
    (left : NextKept fs drive skip ino.toNat inode) (right : NextKept other drive skip ino.toNat inode) :
    Twins drive (fun number => skip number ∧ number ≠ ino.toNat) (fs.inodeWritten drive ino inode)
      (other.inodeWritten drive ino later) := by
  have rightLater : NextKept other drive skip ino.toNat later := by
    intro i bound present number kept place small
    rw [same _ (Nat.zero_le _) (by rw [Inode.bytes]; omega)]
    exact right i bound present number kept place small
  refine ⟨twins.left.inodeWritten valid slot left, twins.right.inodeWritten valid slot rightLater, twins.superblock,
    twins.inodeBitmap, twins.blockBitmap, ?_⟩
  intro sector lower
  by_cases own : sector = 33 + ino.toNat / 4
  · subst own
    rw [inodeWritten_sector valid, inodeWritten_sector valid,
      twins.load (by rw [sectorOf_inodeSector valid]; omega)]
    funext place
    simp only [Bytes.copy]
    split
    · next inside => exact same _ (Nat.zero_le _) (by omega)
    · rfl
  · rw [inodeWritten_sector_other valid _ own, inodeWritten_sector_other valid _ own, twins.sectors sector lower]

theorem sync (twins : Twins drive skip fs other) : Twins drive skip fs.sync.2 other.sync.2 := by
  obtain ⟨_, first, _, firstSame⟩ := sync_spec twins.left.toMounted
  obtain ⟨_, second, _, secondSame⟩ := sync_spec twins.right.toMounted
  have left := twins.left.of_copies twins.left.toMounted.sync (.sync twins.left.toMounted) (by rw [first])
  have right := twins.right.of_copies twins.right.toMounted.sync (.sync twins.right.toMounted) (by rw [second])
  rw [first] at left ⊢
  rw [second] at right ⊢
  refine ⟨left, right, twins.superblock, twins.inodeBitmap, twins.blockBitmap, ?_⟩
  intro sector lower
  rw [secondSame sector lower, firstSame sector lower, twins.sectors sector lower]

end Twins

end MexOS.Fs.Diskfs
