import MexOS.Fs.Durable

/-! The calls of the disk file system answer twins alike and leave twins. -/

namespace MexOS.Fs.Diskfs

open MexOS.Machine

/-- The pointers that are set lead to sectors from `first` on. -/
def LeadsBehind (inode : Inode) (first : Nat) : Prop :=
  ∀ index < directBlocks, inode.block index ≠ 0 → first ≤ Ata.sectorOf (dataStart + inode.block index)

section Records

variable {inode later : Inode} {first last : Nat}

theorem same_setWord (same : Bytes.Same inode later first last) (offset : Nat) (value : Word) :
    Bytes.Same (inode.setWord offset value) (later.setWord offset value) first last := by
  intro place lower upper
  simp only [Bytes.setWord]
  rw [same place lower upper]

theorem block_same (same : Bytes.Same inode later 0 Inode.bytes) {index : Nat} (bound : index < directBlocks) :
    later.block index = inode.block index := by
  have limit : index < 12 := bound
  exact same.word (Nat.zero_le _) (by rw [Inode.bytes]; omega)

theorem LeadsBehind.of_same {limit : Nat} (leads : LeadsBehind inode limit) (same : Bytes.Same inode later 0 128) :
    LeadsBehind later limit := by
  intro index bound nonzero
  have small : index < 12 := bound
  have equal : later.block index = inode.block index := same.word (Nat.zero_le _) (by omega)
  rw [equal] at nonzero ⊢
  exact leads index bound nonzero

theorem LeadsBehind.earlier {limit fewer : Nat} (leads : LeadsBehind inode limit) (less : fewer ≤ limit) :
    LeadsBehind inode fewer := fun index bound nonzero => Nat.le_trans less (leads index bound nonzero)

/-- What the last step of `diskfs_write` does to two copies of a record. -/
theorem finished_same (same : Bytes.Same inode later 0 Inode.bytes) (end_ now : Word) :
    Bytes.Same (finished inode end_ now) (finished later end_ now) 0 Inode.bytes := by
  have size : later.size = inode.size := same.word (Nat.zero_le _) (by decide)
  rw [finished, finished, size]
  apply same_setWord
  split
  · exact same_setWord same _ _
  · exact same

theorem finished_behind (inode : Inode) (end_ now : Word) :
    Bytes.Same inode (finished inode end_ now) 64 Inode.bytes := by
  have outer (before : Inode) : Bytes.Same before (before.setMtime now) 64 Inode.bytes :=
    Bytes.setWord_same (.inr (by decide))
  rw [finished]
  split
  · exact (Bytes.setWord_same (.inr (by decide))).trans (outer _)
  · exact outer _

end Records

section Claim

variable {fs other mid : Diskfs} {drive : Byte} {skip : Nat → Prop} {inode later new : Inode} {index : Nat}

theorem Claimed.copies (claimed : Claimed fs inode index mid new) (drive : Byte) : SameCopies fs mid drive := by
  cases claimed with
  | kept _ => exact ⟨rfl, rfl, rfl, fun _ _ _ => rfl⟩
  | fresh block _ _ _ _ => exact .blockTaken fs drive block

/-- A turn stores behind the inode table if the pointers lead there. -/
theorem Claimed.leads (claimed : Claimed fs inode index mid new) (bound : index < directBlocks)
    (leads : LeadsBehind inode 161) : LeadsBehind new 161 ∧ 161 ≤ Ata.sectorOf (dataStart + new.block index) := by
  cases claimed with
  | kept nonzero => exact ⟨leads, leads index bound nonzero⟩
  | fresh block _ small _ _ =>
    have limit : block < 65536 := small
    have value : (BitVec.ofNat 32 block).toNat = block := by
      rw [BitVec.toNat_ofNat]
      omega
    have data : 161 ≤ Ata.sectorOf (dataStart + BitVec.ofNat 32 block) := by
      rw [sectorOf_data (by rw [value]; exact small)]
      omega
    refine ⟨?_, ?_⟩
    · intro place inside nonzero
      by_cases same : place = index
      · rw [same, setBlock_self]
        exact data
      · rw [setBlock_other _ same] at nonzero ⊢
        exact leads place inside nonzero
    · rw [setBlock_self]
      exact data

theorem Twins.allocBlock (twins : Twins drive skip fs other) : Lockstep (Twins drive skip) fs.allocBlock other.allocBlock := by
  rw [Diskfs.allocBlock, Diskfs.allocBlock, twins.superblock, twins.blockBitmap]
  cases bitmapFindFree fs.blockBitmap fs.superblock.totalBlocks with
  | none => exact .none
  | some block =>
    simp only [Option.bind_eq_bind, Option.bind_some]
    by_cases full : block < 0
    · rw [if_pos full, if_pos full]
      exact .answered _ twins
    · rw [if_neg full, if_neg full]
      have taken := twins.blockTaken block.toNat
      simp only [Diskfs.blockTaken, twins.superblock, twins.blockBitmap] at taken
      exact .answered _ taken

theorem Twins.allocInode (twins : Twins drive skip fs other) : fs.allocInode.map Prod.fst = other.allocInode.map Prod.fst := by
  rw [Diskfs.allocInode, Diskfs.allocInode, twins.superblock, twins.inodeBitmap]
  cases bitmapFindFree fs.inodeBitmap fs.superblock.totalInodes with
  | none => rfl
  | some ino =>
    simp only [Option.bind_eq_bind, Option.bind_some]
    by_cases full : ino < 0
    · rw [if_pos full, if_pos full]
      rfl
    · rw [if_neg full, if_neg full]
      rfl

/-- Both turns get a block, the same one, or neither does. -/
theorem Twins.claimBlock (twins : Twins drive skip fs other) (same : Bytes.Same inode later 0 Inode.bytes)
    (bound : index < directBlocks) :
    Option.Rel (fun left right => Option.Rel (fun i j => Bytes.Same i j 0 Inode.bytes) left.1 right.1 ∧
      Twins drive skip left.2 right.2) (fs.claimBlock inode index) (other.claimBlock later index) := by
  rw [Diskfs.claimBlock, Diskfs.claimBlock, block_same same bound]
  by_cases zero : inode.block index = 0
  · rw [if_pos zero, if_pos zero]
    apply rel_bind twins.allocBlock
    rintro ⟨block, s⟩ ⟨block', t⟩ ⟨equal, states⟩
    simp only at equal states
    subst equal
    simp only
    by_cases full : block' < 0
    · rw [if_pos full, if_pos full]
      exact .some ⟨.none, states⟩
    · rw [if_neg full, if_neg full]
      exact .some ⟨.some (same_setWord same _ _), states⟩
  · rw [if_neg zero, if_neg zero]
    exact .some ⟨.some same, twins⟩

end Claim

section Write

variable {fs other : Diskfs} {drive : Byte} {skip : Nat → Prop} {ino : Word} {inode later : Inode}

/-- What the loop of `diskfs_write` leaves of twins. -/
structure LoopTwins (drive : Byte) (skip : Nat → Prop) (fs other : Diskfs) (inode : Inode)
    (left right : Option (Inode × Nat) × Diskfs) : Prop where
  twins : Twins drive skip left.2 right.2
  leftCopies : SameCopies fs left.2 drive
  rightCopies : SameCopies other right.2 drive
  files : ∃ final later count, left.1 = some (final, count) ∧ right.1 = some (later, count) ∧
    Bytes.Same final later 0 Inode.bytes ∧ Bytes.Same inode final 56 Inode.bytes

theorem Twins.writeLoop (twins : Twins drive skip fs other) (same : Bytes.Same inode later 0 Inode.bytes)
    (leads : LeadsBehind inode 161) (source : Bytes) (offset size : Word) (turns moved : Nat) :
    Option.Rel (LoopTwins drive skip fs other inode) (writeLoop source offset size turns fs inode moved)
      (writeLoop source offset size turns other later moved) := by
  induction turns generalizing fs other inode later moved with
  | zero => exact .none
  | succ turns ih =>
    have stopped : LoopTwins drive skip fs other inode (some (inode, moved), fs) (some (later, moved), other) :=
      ⟨twins, ⟨rfl, rfl, rfl, fun _ _ _ => rfl⟩, ⟨rfl, rfl, rfl, fun _ _ _ => rfl⟩, inode, later, moved, rfl, rfl, same,
        .refl _ _ _⟩
    rw [Diskfs.writeLoop, Diskfs.writeLoop]
    generalize (offset + BitVec.ofNat 32 moved).toNat = position
    by_cases done : size.toNat ≤ moved
    · rw [if_pos done, if_pos done]
      exact .some stopped
    by_cases past : directBlocks ≤ position / 512
    · rw [if_neg done, if_neg done, if_pos past, if_pos past]
      exact .some stopped
    rw [if_neg done, if_neg done, if_neg past, if_neg past]
    have bound : position / 512 < directBlocks := by omega
    have both := twins.claimBlock same bound
    rcases claimBlock_spec twins.left.toMounted inode (position / 512) with full | ⟨mid, new, claimed, claim⟩
    · rw [full] at both ⊢
      rcases claimBlock_spec twins.right.toMounted later (position / 512) with
        otherFull | ⟨otherMid, otherNew, _, otherClaim⟩
      · rw [otherFull]
        exact .some stopped
      · rw [otherClaim] at both
        cases both with
        | some facts => cases facts.1
    · rw [claim] at both ⊢
      rcases claimBlock_spec twins.right.toMounted later (position / 512) with
        otherFull | ⟨otherMid, otherNew, otherClaimed, otherClaim⟩
      · rw [otherFull] at both
        cases both with
        | some facts => cases facts.1
      rw [otherClaim] at both ⊢
      obtain ⟨sameNew, midTwins⟩ : Bytes.Same new otherNew 0 Inode.bytes ∧ Twins drive skip mid otherMid := by
        cases both with
        | some facts =>
          refine ⟨?_, facts.2⟩
          cases facts.1 with
          | some files => exact files
      obtain ⟨newLeads, behind⟩ := claimed.leads bound leads
      have target := block_same sameNew bound
      obtain ⟨first, store⟩ := storeChunk_eq midTwins.left.toMounted (new.block (position / 512)) (position % 512) source
        moved (chunk position (size.toNat - moved))
      obtain ⟨second, otherStore⟩ := storeChunk_eq midTwins.right.toMounted (new.block (position / 512)) (position % 512)
        source moved (chunk position (size.toNat - moved))
      have content : chunkStored otherMid drive (new.block (position / 512)) = chunkStored mid drive (new.block (position / 512)) := by
        funext start source moved length
        rw [chunkStored, chunkStored, Diskfs.content, Diskfs.content, midTwins.load (by omega)]
      rw [content] at otherStore
      simp only [target, store, otherStore]
      generalize chunkStored mid drive (new.block (position / 512)) (position % 512) source moved
        (chunk position (size.toNat - moved)) = stored
      have next := ih ((midTwins.blockStored behind stored).retime first second) sameNew newLeads
        (moved + chunk position (size.toNat - moved))
      apply rel_imp next
      intro left right rest
      obtain ⟨final, otherFinal, count, leftResult, rightResult, files, fields⟩ := rest.files
      refine ⟨rest.twins, ?_, ?_, final, otherFinal, count, leftResult, rightResult, files, ?_⟩
      · exact (((claimed.copies drive).trans (.blockStored mid drive behind stored)).trans (.retime _ drive first)).trans
          rest.leftCopies
      · exact (((otherClaimed.copies drive).trans (.blockStored otherMid drive behind stored)).trans
          (.retime _ drive second)).trans rest.rightCopies
      · intro place lower upper
        rw [fields place lower upper, claimed.bytes_outside bound (.inr lower)]

/-- Fewer inodes to skip. -/
theorem Twins.imp {fewer : Nat → Prop} (twins : Twins drive skip fs other) (sub : ∀ number, skip number → fewer number) :
    Twins drive fewer fs other :=
  ⟨⟨twins.left.toMounted, twins.left.magic, twins.left.numbers, fun i bound valid kept =>
      twins.left.copies i bound valid fun skipped => kept (sub _ skipped)⟩,
    ⟨twins.right.toMounted, twins.right.magic, twins.right.numbers, fun i bound valid kept =>
      twins.right.copies i bound valid fun skipped => kept (sub _ skipped)⟩,
    twins.superblock, twins.inodeBitmap, twins.blockBitmap, twins.sectors⟩

theorem NextKept.loaded (next : NextKept fs drive skip ino.toNat inode) (transfers : Nat) :
    NextKept ((fs.inodeLoaded drive ino).retime transfers) drive skip ino.toNat inode := by
  have table : ((fs.inodeLoaded drive ino).retime transfers).onDisk drive = fs.onDisk drive :=
    (inodeLoaded_cacheOnly fs drive ino).onDisk drive
  rw [NextKept, table]
  cases hit : fs.cached ino with
  | some i =>
    have unchanged : fs.inodeLoaded drive ino = fs := by simp only [Diskfs.inodeLoaded, hit]
    rw [unchanged]
    exact next
  | none =>
    have changed : fs.inodeLoaded drive ino = fs.remember ino (fs.record drive ino) := by
      simp only [Diskfs.inodeLoaded, hit]
    rw [changed]
    intro i bound present number
    simp only [Diskfs.retime, remember] at present number
    by_cases new : i = fs.cacheIdx.val
    · rw [new, Function.update_self] at number
      omega
    · rw [Function.update_of_ne new] at present number
      exact next i bound present number

theorem NextKept.of_copies {after : Diskfs} {number : Nat} (next : NextKept fs drive skip number inode)
    (same : SameCopies fs after drive) (inside : number + 1 < maxInodes) {final : Inode}
    (tail : Bytes.Same inode final 128 Inode.bytes) : NextKept after drive skip number final := by
  intro i bound present cached kept place small
  rw [same.inodeCacheValid] at present
  rw [same.inodeCacheNum] at cached
  rw [same.onDisk inside, tail (128 + place) (by omega) (by rw [Inode.bytes]; omega)]
  exact next i bound present cached kept place small

/-- `diskfs_write` on twins whose copies of the record are the same to the end:
no copy is out of step afterwards. -/
theorem Twins.write (twins : Twins drive skip fs other) (valid : ino.toNat < maxInodes) (slot : ino.toNat % 4 ≠ 3)
    (only : ∀ number, skip number → number = ino.toNat)
    (same : Bytes.Same (fs.record drive ino) (other.record drive ino) 0 Inode.bytes)
    (leads : LeadsBehind (fs.record drive ino) 161)
    (left : NextKept fs drive skip ino.toNat (fs.record drive ino))
    (right : NextKept other drive skip ino.toNat (fs.record drive ino)) (source : Bytes) (offset size now : Word) :
    Lockstep (Twins drive fun _ => False) (fs.write ino source offset size now) (other.write ino source offset size now) := by
  have limit : ino.toNat < 512 := valid
  have inside : ino.toNat + 1 < maxInodes := by
    rw [maxInodes]
    omega
  obtain ⟨first, load⟩ := readInode_eq twins.left.toMounted valid slot
  obtain ⟨second, otherLoad⟩ := readInode_eq twins.right.toMounted valid slot
  rw [Diskfs.write, Diskfs.write, if_neg twins.left.drive_ne, if_neg twins.right.drive_ne, twins.left.mounted,
    twins.right.mounted, load, otherLoad]
  simp only [Option.bind_eq_bind, Option.bind_some]
  apply rel_bind (((twins.inodeLoaded valid slot).retime first second).writeLoop same leads source offset _ maxTurns 0)
  rintro ⟨leftResult, mid⟩ ⟨rightResult, otherMid⟩ loop
  obtain ⟨final, otherFinal, count, rfl, rfl, files, fields⟩ := loop.files
  have states : Twins drive skip mid otherMid := loop.twins
  have store := writeInode_eq states.left.working valid (finished final (offset + BitVec.ofNat 32 count) now)
  have otherStore := writeInode_eq states.right.working valid (finished otherFinal (offset + BitVec.ofNat 32 count) now)
  rw [if_neg slot, finished] at store otherStore
  simp only [states.left.mounted, states.right.mounted, store, otherStore, Option.bind_some]
  have tail : Bytes.Same (fs.record drive ino) (finished final (offset + BitVec.ofNat 32 count) now) 128 Inode.bytes :=
    (fields.narrow (by decide) (Nat.le_refl _)).trans ((finished_behind _ _ _).narrow (by decide) (Nat.le_refl _))
  apply Lockstep.answered
  refine (states.inodeWritten valid slot (finished_same files _ _) ?_ ?_).imp ?_
  · exact (left.loaded first).of_copies loop.leftCopies inside tail
  · exact (right.loaded second).of_copies loop.rightCopies inside tail
  · rintro number ⟨skipped, differ⟩
    exact differ (only number skipped)

end Write

section Read

variable {fs other : Diskfs} {drive : Byte} {skip : Nat → Prop} {ino : Word}

theorem Twins.contents (twins : Twins drive skip fs other) (valid : ino.toNat < maxInodes) (slot : ino.toNat % 4 ≠ 3)
    (kept : ¬ skip ino.toNat) (leads : LeadsBehind (fs.onDisk drive ino.toNat) 33) :
    other.contents drive (other.record drive ino) = fs.contents drive (fs.record drive ino) := by
  have stored := twins.left.record valid slot kept
  have file : SameFile (fs.record drive ino) (other.record drive ino) :=
    SameFile.of_bytes ((twins.record valid slot kept).narrow (by decide) (by decide))
  funext buffer offset size
  apply contents_congr file
  intro index bound nonzero
  have behind := (leads.of_same stored) index bound nonzero
  rw [content, content, twins.load behind]

/-- `read_inode` fails alike, gets stuck alike, or loads the inode. -/
theorem Twins.readInode (twins : Twins drive skip fs other) (kept : ¬ skip ino.toNat) :
    Option.Rel (fun left right => Twins drive skip left.2 right.2 ∧
      (left.1 = .error (-1) ∧ right.1 = .error (-1) ∨
        ∃ inode later, left.1 = .ok inode ∧ right.1 = .ok later ∧ Bytes.Same inode later 0 128))
      (fs.readInode drive ino) (other.readInode drive ino) := by
  by_cases beyond : maxInodes ≤ ino.toNat
  · rw [Diskfs.readInode, Diskfs.readInode, if_pos beyond, if_pos beyond]
    exact .some ⟨twins, .inl ⟨rfl, rfl⟩⟩
  have valid : ino.toNat < maxInodes := by omega
  by_cases slot : ino.toNat % 4 = 3
  · rw [twins.left.readInode_last valid slot, twins.right.readInode_last valid slot]
    exact .none
  · obtain ⟨first, load⟩ := readInode_eq twins.left.toMounted valid slot
    obtain ⟨second, otherLoad⟩ := readInode_eq twins.right.toMounted valid slot
    rw [load, otherLoad]
    exact .some ⟨(twins.inodeLoaded valid slot).retime first second, .inr ⟨_, _, rfl, rfl, twins.record valid slot kept⟩⟩

theorem Twins.read (twins : Twins drive skip fs other) (kept : ¬ skip ino.toNat)
    (leads : ino.toNat < maxInodes → LeadsBehind (fs.onDisk drive ino.toNat) 33) (buffer : Bytes) (offset size : Word) :
    Option.Rel (fun left right => right.1 = left.1 ∧ right.2.1 = left.2.1 ∧ Twins drive skip left.2.2 right.2.2)
      (fs.read ino buffer offset size) (other.read ino buffer offset size) := by
  by_cases beyond : maxInodes ≤ ino.toNat
  · rw [Diskfs.read, Diskfs.read, if_neg twins.left.drive_ne, if_neg twins.right.drive_ne, Diskfs.readInode,
      Diskfs.readInode, if_pos beyond, if_pos beyond]
    exact .some ⟨rfl, rfl, twins⟩
  have valid : ino.toNat < maxInodes := by omega
  by_cases slot : ino.toNat % 4 = 3
  · rw [Diskfs.read, Diskfs.read, if_neg twins.left.drive_ne, if_neg twins.right.drive_ne, twins.left.mounted,
      twins.right.mounted, twins.left.readInode_last valid slot, twins.right.readInode_last valid slot]
    exact .none
  · obtain ⟨first, read⟩ := read_eq twins.left.toMounted valid slot buffer offset size
    obtain ⟨second, otherRead⟩ := read_eq twins.right.toMounted valid slot buffer offset size
    rw [read, otherRead, twins.contents valid slot kept (leads valid)]
    cases fs.contents drive (fs.record drive ino) buffer offset size with
    | none => exact .none
    | some answer => exact .some ⟨rfl, rfl, (twins.inodeLoaded valid slot).retime first second⟩

/-- The loop finds the same, and the states it leaves differ in the clock alone. -/
theorem Twins.lookupLoop (twins : Twins drive skip fs other) (valid : ino.toNat < maxInodes) (slot : ino.toNat % 4 ≠ 3)
    (loaded : fs.inodeLoaded drive ino = fs) (otherLoaded : other.inodeLoaded drive ino = other)
    (same : other.contents drive (other.record drive ino) = fs.contents drive (fs.record drive ino))
    (junk : Nat → Dirent) (name : CString) (turns first second : Nat) :
    Lockstep (Twins drive skip) (lookupLoop junk ino name turns (fs.retime first) 0)
      (lookupLoop junk ino name turns (other.retime second) 0) := by
  have agree := lookupLoop_agree twins.left.toMounted twins.right.toMounted valid slot loaded otherLoaded same junk name
    turns 0 first second
  have leftLoaded : (fs.retime first).inodeLoaded drive ino = fs.retime first := by
    rw [retime_inodeLoaded, loaded]
  have rightLoaded : (other.retime second).inodeLoaded drive ino = other.retime second := by
    rw [retime_inodeLoaded, otherLoaded]
  cases left : Diskfs.lookupLoop junk ino name turns (fs.retime first) 0 with
  | none =>
    rw [left] at agree
    rw [Option.map_eq_none_iff.mp agree]
    exact .none
  | some result =>
    obtain ⟨found, after⟩ := result
    rw [left] at agree
    obtain ⟨⟨_, later⟩, right, equal⟩ := Option.map_eq_some_iff.mp agree
    simp only at equal
    subst equal
    obtain ⟨one, leftState⟩ := lookupLoop_state (twins.left.toMounted.retime first) valid slot leftLoaded left
    obtain ⟨two, rightState⟩ := lookupLoop_state (twins.right.toMounted.retime second) valid slot rightLoaded right
    rw [right, leftState, rightState]
    exact .answered _ (twins.retime one two)

theorem Twins.lookup (twins : Twins drive skip fs other) (kept : ¬ skip ino.toNat)
    (leads : ino.toNat < maxInodes → (fs.onDisk drive ino.toNat).type = typeDir →
      LeadsBehind (fs.onDisk drive ino.toNat) 33) (junk : Nat → Dirent) (name : CString) :
    Lockstep (Twins drive skip) (fs.lookup junk ino name) (other.lookup junk ino name) := by
  rw [Diskfs.lookup, Diskfs.lookup, if_neg twins.left.drive_ne, if_neg twins.right.drive_ne, twins.left.mounted,
    twins.right.mounted]
  by_cases beyond : maxInodes ≤ ino.toNat
  · rw [Diskfs.readInode, Diskfs.readInode, if_pos beyond, if_pos beyond]
    exact .answered _ twins
  have valid : ino.toNat < maxInodes := by omega
  by_cases slot : ino.toNat % 4 = 3
  · rw [twins.left.readInode_last valid slot, twins.right.readInode_last valid slot]
    exact .none
  obtain ⟨first, load⟩ := readInode_eq twins.left.toMounted valid slot
  obtain ⟨second, otherLoad⟩ := readInode_eq twins.right.toMounted valid slot
  have stored := twins.left.record valid slot kept
  have records := twins.record valid slot kept
  have type : (other.record drive ino).type = (fs.record drive ino).type := records.word (Nat.zero_le _) (by decide)
  have size : (other.record drive ino).size = (fs.record drive ino).size := records.word (Nat.zero_le _) (by decide)
  have loaded := twins.inodeLoaded valid slot
  rw [load, otherLoad]
  simp only [Option.bind_eq_bind, Option.bind_some, type, size]
  by_cases directory : (fs.record drive ino).type = typeDir
  · have onDisk : (fs.onDisk drive ino.toNat).type = typeDir := by
      rw [← directory]
      exact (stored.word (Nat.zero_le _) (by decide)).symm
    rw [if_neg (not_not.mpr directory), if_neg (not_not.mpr directory)]
    refine loaded.lookupLoop valid slot (twins.left.toMounted.inodeLoaded_twice ino)
      (twins.right.toMounted.inodeLoaded_twice ino) (loaded.contents valid slot kept ?_) junk name _ first second
    rw [(inodeLoaded_cacheOnly fs drive ino).onDisk]
    exact leads valid onDisk
  · rw [if_pos directory, if_pos directory]
    exact .answered _ (loaded.retime first second)

end Read

end MexOS.Fs.Diskfs
