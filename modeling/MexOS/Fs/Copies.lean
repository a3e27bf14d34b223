import MexOS.Fs.Names

/-! What holds of every copy of an inode, on the disk and in the cache, also
where the two differ. -/

namespace MexOS.Fs.Diskfs

open MexOS.Machine

/-- `holds` is true of the record on the disk and of every cached one. -/
structure Everywhere (fs : Diskfs) (drive : Byte) (ino : Word) (holds : Inode → Prop) : Prop where
  stored : holds (fs.onDisk drive ino.toNat)
  cached : ∀ i < 8, fs.inodeCacheValid i = true → fs.inodeCacheNum i = ino → holds (fs.inodeCache i)

/-- Only the type, the size and the block pointers matter. -/
def Shallow (holds : Inode → Prop) : Prop := ∀ inode other, Bytes.Same inode other 0 56 → holds inode → holds other

/-- The cache and the inode table are the same, and so are some blocks. -/
structure Quiet (fs after : Diskfs) (drive : Byte) (safe : Nat → Prop) : Prop where
  mounted : Mounted after drive
  inodeBitmap : after.inodeBitmap = fs.inodeBitmap
  taken : ∀ block, fs.taken block → after.taken block
  inodeCache : after.inodeCache = fs.inodeCache
  inodeCacheNum : after.inodeCacheNum = fs.inodeCacheNum
  inodeCacheValid : after.inodeCacheValid = fs.inodeCacheValid
  table : ∀ sector, 33 ≤ sector → sector < 545 → after.ata.sectors drive sector = fs.ata.sectors drive sector
  blocks : ∀ block, safe block → after.ata.sectors drive (545 + block) = fs.ata.sectors drive (545 + block)

namespace Quiet

variable {fs mid after : Diskfs} {drive : Byte} {safe : Nat → Prop}

theorem refl (mounted : Mounted fs drive) (safe : Nat → Prop) : Quiet fs fs drive safe :=
  ⟨mounted, rfl, fun _ present => present, rfl, rfl, rfl, fun _ _ _ => rfl, fun _ _ => rfl⟩

theorem trans (left : Quiet fs mid drive safe) (right : Quiet mid after drive safe) : Quiet fs after drive safe where
  mounted := right.mounted
  inodeBitmap := right.inodeBitmap.trans left.inodeBitmap
  taken block present := right.taken block (left.taken block present)
  inodeCache := right.inodeCache.trans left.inodeCache
  inodeCacheNum := right.inodeCacheNum.trans left.inodeCacheNum
  inodeCacheValid := right.inodeCacheValid.trans left.inodeCacheValid
  table sector lower upper := (right.table sector lower upper).trans (left.table sector lower upper)
  blocks block kept := (right.blocks block kept).trans (left.blocks block kept)

theorem onDisk (quiet : Quiet fs after drive safe) {ino : Nat} (valid : ino < maxInodes) :
    after.onDisk drive ino = fs.onDisk drive ino := by
  rw [maxInodes] at valid
  funext place
  rw [Diskfs.onDisk, Diskfs.onDisk, quiet.table _ (by omega) (by omega)]

theorem record (quiet : Quiet fs after drive safe) {ino : Word} (valid : ino.toNat < maxInodes) :
    after.record drive ino = fs.record drive ino := by
  have limit : ino.toNat < 512 := valid
  have hits : after.cached ino = fs.cached ino := by
    simp only [Diskfs.cached, quiet.inodeCacheNum, quiet.inodeCacheValid]
  have sector : after.ata.load drive (inodeSector ino) 1 Bytes.zero = fs.ata.load drive (inodeSector ino) 1 Bytes.zero := by
    funext place
    simp only [Ata.load, sectorOf_inodeSector valid]
    split
    · have first : place / 512 = 0 := by omega
      rw [first, Nat.add_zero, quiet.table _ (by omega) (by omega)]
    · rfl
  simp only [Diskfs.record, hits, quiet.inodeCache, sector]

theorem everywhere (quiet : Quiet fs after drive safe) {ino : Word} (valid : ino.toNat < maxInodes) {holds : Inode → Prop}
    (copies : Everywhere fs drive ino holds) : Everywhere after drive ino holds := by
  constructor
  · rw [quiet.onDisk valid]
    exact copies.stored
  · rw [quiet.inodeCache, quiet.inodeCacheNum, quiet.inodeCacheValid]
    exact copies.cached

theorem sync (mounted : Mounted fs drive) (safe : Nat → Prop) : Quiet fs fs.sync.2 drive safe := by
  have after := mounted.sync
  obtain ⟨ata, result, _, same⟩ := sync_spec mounted
  rw [result] at after ⊢
  refine ⟨after, rfl, fun _ present => present, rfl, rfl, rfl, fun sector lower _ => same sector lower, ?_⟩
  exact fun block _ => same _ (by omega)

theorem retime (mounted : Mounted fs drive) (transfers : Nat) (safe : Nat → Prop) :
    Quiet fs (fs.retime transfers) drive safe :=
  ⟨mounted.retime transfers, rfl, fun _ present => present, rfl, rfl, rfl, fun _ _ _ => rfl, fun _ _ => rfl⟩

end Quiet

namespace Everywhere

variable {fs : Diskfs} {drive : Byte} {ino other : Word} {holds : Inode → Prop} {inode : Inode}

theorem imp {weaker : Inode → Prop} (copies : Everywhere fs drive ino holds)
    (step : ∀ inode, holds inode → weaker inode) : Everywhere fs drive ino weaker :=
  ⟨step _ copies.stored, fun i bound valid number => step _ (copies.cached i bound valid number)⟩

/-- What `read_inode` returns is one of the copies. -/
theorem record (copies : Everywhere fs drive ino holds) (valid : ino.toNat < maxInodes) (slot : ino.toNat % 4 ≠ 3)
    (shallow : Shallow holds) : holds (fs.record drive ino) := by
  cases hit : fs.cached ino with
  | some i =>
    obtain ⟨bound, present, number⟩ := of_cached hit
    rw [record_of_hit hit]
    exact copies.cached i bound present number
  | none => exact shallow _ _ ((record_of_miss valid slot hit).narrow (by decide) (by decide)) copies.stored

theorem loaded (copies : Everywhere fs drive ino holds) (valid : ino.toNat < maxInodes) (slot : ino.toNat % 4 ≠ 3)
    (shallow : Shallow holds) (other : Word) (transfers : Nat) :
    Everywhere ((fs.inodeLoaded drive other).retime transfers) drive ino holds := by
  have same := inodeLoaded_cacheOnly fs drive other
  have table : ((fs.inodeLoaded drive other).retime transfers).onDisk drive = fs.onDisk drive := same.onDisk drive
  refine ⟨table ▸ copies.stored, ?_⟩
  cases hit : fs.cached other with
  | some i =>
    have unchanged : fs.inodeLoaded drive other = fs := by simp only [inodeLoaded, hit]
    rw [unchanged]
    exact copies.cached
  | none =>
    have changed : fs.inodeLoaded drive other = fs.remember other (fs.record drive other) := by
      simp only [inodeLoaded, hit]
    rw [changed]
    intro i bound present number
    simp only [retime, remember] at present number ⊢
    by_cases new : i = fs.cacheIdx.val
    · subst new
      rw [Function.update_self] at number ⊢
      rw [number]
      exact copies.record valid slot shallow
    · rw [Function.update_of_ne new] at present number ⊢
      exact copies.cached i bound present number

/-- After a `write_inode` every copy is the record it stored. -/
theorem inodeWritten (mounted : Mounted fs drive) (valid : ino.toNat < maxInodes) (shallow : Shallow holds)
    (true_of : holds inode) : Everywhere (fs.inodeWritten drive ino inode) drive ino holds := by
  constructor
  · exact shallow _ _ ((onDisk_inodeWritten_self valid inode).narrow (by decide) (by decide)) true_of
  · intro i bound present number
    have hit := mounted.cached_eq bound present
    have same : fs.inodeCacheNum i = ino := number
    rw [same] at hit
    have copy : (fs.inodeWritten drive ino inode).inodeCache i = inode := by
      simp only [Diskfs.inodeWritten, hit, Function.update_self]
    rw [copy]
    exact true_of

/-- A `write_inode` leaves the copies of other inodes alone, but for the next
one. -/
theorem inodeWritten_other (copies : Everywhere fs drive ino holds) (valid : other.toNat < maxInodes)
    (slot : other.toNat % 4 ≠ 3) (differ : ino ≠ other) (apart : ino.toNat ≠ other.toNat + 1) (shallow : Shallow holds)
    (inode : Inode) : Everywhere (fs.inodeWritten drive other inode) drive ino holds := by
  constructor
  · refine shallow _ _ ?_ copies.stored
    intro place _ upper
    rw [onDisk_inodeWritten_other valid slot inode (fun same => differ (BitVec.eq_of_toNat_eq same)) (by omega),
      if_neg (fun next => apart next.1)]
  · intro i bound present number
    have copy : (fs.inodeWritten drive other inode).inodeCache i = fs.inodeCache i := by
      cases hit : fs.cached other with
      | none => simp only [Diskfs.inodeWritten, hit]
      | some j =>
        have elsewhere : i ≠ j := by
          rintro rfl
          exact differ (number.symm.trans (of_cached hit).2.2)
        simp only [Diskfs.inodeWritten, hit]
        exact Function.update_of_ne elsewhere _ _
    rw [copy]
    exact copies.cached i bound present number

end Everywhere

section Writing

variable {fs after : Diskfs} {drive : Byte} {ino : Word} {safe : Nat → Prop} {inode : Inode}

/-- No pointer of the record leads to a block of the set. -/
def Avoids (inode : Inode) (safe : Nat → Prop) : Prop :=
  ∀ index < directBlocks, inode.block index ≠ 0 →
    (inode.block index).toNat < maxBlocks ∧ ¬ safe (inode.block index).toNat

theorem Claimed.quiet {mid : Diskfs} {new : Inode} {index : Nat} (claimed : Claimed fs inode index mid new)
    (mounted : Mounted fs drive) (safe : Nat → Prop) : Quiet fs mid drive safe := by
  refine ⟨claimed.mounted mounted, claimed.inodeBitmap, fun _ => claimed.taken, ?_, ?_, ?_, ?_, ?_⟩
  · cases claimed <;> rfl
  · cases claimed <;> rfl
  · cases claimed <;> rfl
  · intro sector _ _
    rw [claimed.ata]
  · intro block _
    rw [claimed.ata]

/-- The block a turn stores to, and the pointers after it. -/
theorem Claimed.avoids {mid : Diskfs} {new : Inode} {index : Nat} (claimed : Claimed fs inode index mid new)
    (bound : index < directBlocks) (taken : ∀ block, safe block → fs.taken block) (avoids : Avoids inode safe) :
    (new.block index).toNat < maxBlocks ∧ ¬ safe (new.block index).toNat ∧ Avoids new safe := by
  cases claimed with
  | kept nonzero =>
    obtain ⟨small, outside⟩ := avoids index bound nonzero
    exact ⟨small, outside, avoids⟩
  | fresh block _ small free _ =>
    have value : (BitVec.ofNat 32 block).toNat = block := by
      have limit : block < 65536 := small
      rw [BitVec.toNat_ofNat]
      omega
    have outside : ¬ safe block := by
      intro kept
      have present := (taken block kept).2
      rw [free] at present
      cases present
    rw [setBlock_self, value]
    refine ⟨small, outside, ?_⟩
    intro other otherBound nonzero
    by_cases same : other = index
    · rw [same, setBlock_self, value]
      exact ⟨small, outside⟩
    · rw [setBlock_other _ same] at nonzero ⊢
      exact avoids other otherBound nonzero

theorem blockStored_quiet (mounted : Mounted fs drive) {block : Word} (small : block.toNat < maxBlocks)
    (outside : ¬ safe block.toNat) (content : Bytes) : Quiet fs (fs.blockStored drive block content) drive safe := by
  refine ⟨mounted.blockStored block content, rfl, fun _ present => present, rfl, rfl, rfl, ?_, ?_⟩
  · intro sector _ upper
    exact blockStored_other fs drive small content (by omega)
  · intro other kept
    refine blockStored_other fs drive small content ?_
    intro same
    exact outside ((Nat.add_left_cancel same) ▸ kept)

/-- The loop of `diskfs_write` stores to the blocks of the file and to new ones. -/
theorem writeLoop_quiet (mounted : Mounted fs drive) (taken : ∀ block, safe block → fs.taken block)
    (avoids : Avoids inode safe) {source : Bytes} {offset size : Word} {turns moved : Nat}
    {result : Option (Inode × Nat)} (call : writeLoop source offset size turns fs inode moved = some (result, after)) :
    Quiet fs after drive safe ∧ ∃ final count, result = some (final, count) ∧ Bytes.Same inode final 0 8 := by
  induction turns generalizing fs inode moved with
  | zero => cases call
  | succ turns ih =>
    have stopped (returned : some (some (inode, moved), fs) = some (result, after)) :
        Quiet fs after drive safe ∧ ∃ final count, result = some (final, count) ∧ Bytes.Same inode final 0 8 := by
      obtain ⟨rfl, rfl⟩ := Prod.mk.inj (Option.some.inj returned)
      exact ⟨.refl mounted safe, inode, moved, rfl, .refl inode 0 8⟩
    rw [writeLoop] at call
    generalize (offset + BitVec.ofNat 32 moved).toNat = position at call
    by_cases done : size.toNat ≤ moved
    · rw [if_pos done] at call
      exact stopped call
    by_cases past : directBlocks ≤ position / 512
    · rw [if_neg done, if_pos past] at call
      exact stopped call
    rw [if_neg done, if_neg past] at call
    have bound : position / 512 < directBlocks := by omega
    rcases claimBlock_spec mounted inode (position / 512) with full | ⟨mid, new, claimed, claim⟩
    · rw [full] at call
      exact stopped call
    · obtain ⟨content, transfers, _, store⟩ := storeChunk_spec (claimed.mounted mounted) (new.block (position / 512))
        (position % 512) source moved (chunk position (size.toNat - moved))
      obtain ⟨small, outside, later⟩ := claimed.avoids bound taken avoids
      rw [claim] at call
      simp only [store] at call
      have first := claimed.quiet mounted safe
      have second := @blockStored_quiet mid drive safe first.mounted _ small outside content
      have turn := (first.trans second).trans (.retime second.mounted transfers safe)
      obtain ⟨rest, final, count, returned, same⟩ := ih turn.mounted (fun block kept => turn.taken block (taken block kept))
        later call
      refine ⟨turn.trans rest, final, count, returned, ?_⟩
      intro place lower upper
      rw [same place lower upper, claimed.bytes_outside bound (.inl upper)]

theorem finished_type {last now : Word} : (finished inode last now).type = inode.type := by
  have outer (before : Inode) : (before.setMtime now).type = before.type := Bytes.word_setWord_of_apart (by omega)
  rw [finished, outer]
  split
  · exact Bytes.word_setWord_of_apart (by omega)
  · rfl

/-- `diskfs_write` changes its own record, and blocks outside the set. -/
theorem write_quiet (mounted : Mounted fs drive) (valid : ino.toNat < maxInodes) (slot : ino.toNat % 4 ≠ 3)
    (taken : ∀ block, safe block → fs.taken block) (avoids : Avoids (fs.record drive ino) safe) {source : Bytes}
    {offset size now : Word} {ret : Int} (call : fs.write ino source offset size now = some (ret, after)) :
    ∃ first mid record, Quiet ((fs.inodeLoaded drive ino).retime first) mid drive safe ∧
      record.type = (fs.record drive ino).type ∧ after = mid.inodeWritten drive ino record := by
  obtain ⟨first, load⟩ := readInode_eq mounted valid slot
  have loaded := inodeLoaded_cacheOnly fs drive ino
  rw [write, if_neg mounted.drive_ne, mounted.mounted, load] at call
  simp only [Option.bind_eq_bind, Option.bind_some] at call
  obtain ⟨⟨result, mid⟩, loop, call⟩ := Option.bind_eq_some_iff.mp call
  have start : ∀ block, safe block → ((fs.inodeLoaded drive ino).retime first).taken block := by
    intro block kept
    have present := taken block kept
    rw [Diskfs.taken, ← loaded.blockBitmap] at present
    exact present
  obtain ⟨quiet, final, count, rfl, header⟩ := writeLoop_quiet ((mounted.inodeLoaded ino).retime first) start avoids loop
  have store := writeInode_eq quiet.mounted.working valid (finished final (offset + BitVec.ofNat 32 count) now)
  rw [if_neg slot, finished] at store
  simp only [quiet.mounted.mounted, store, Option.bind_some] at call
  refine ⟨first, mid, finished final (offset + BitVec.ofNat 32 count) now, quiet, ?_, ?_⟩
  · rw [finished_type]
    exact header.word (by decide) (by decide)
  · exact (Prod.mk.inj (Option.some.inj call)).2.symm

end Writing

end MexOS.Fs.Diskfs
