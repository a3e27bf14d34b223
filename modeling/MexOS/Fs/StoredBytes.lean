import MexOS.Fs.FailedWrite
import MexOS.Fs.InPlace

/-! When a file begins with the bytes that a `diskfs_write` from its beginning on
was given, and when that call stores none. -/

namespace MexOS.Fs.Diskfs

open MexOS.Machine

/-- The transfers for `left` bytes from the start of a block on. -/
def transfersFor (left : Nat) : Nat := left / 512 + if left % 512 ≠ 0 then 2 else 0

/-- The transfers for the bytes from `first` up to `last` work, and there are
blocks for all their zero pointers. -/
structure StoresFrom (fs : Diskfs) (inode : Inode) (first last : Nat) : Prop where
  present : fs.ata.driveExists fs.mountedDrive = true
  works : fs.ata.Works 0 (transfersFor (last - first))
  room : holes inode (first / 512) ((last - 1) / 512) ≤ fs.spareBlocks

theorem works_add (ata : Ata) (first second : Nat) :
    ata.Works 0 (first + second) ↔ ata.Works 0 first ∧ ata.Works first second := by
  constructor
  · intro works
    exact ⟨fun i bound => works i (by omega), fun i bound => by simpa [Nat.add_assoc] using works (first + i) (by omega)⟩
  · rintro ⟨early, late⟩ i bound
    by_cases before : i < first
    · exact early i before
    · have later := late (i - first) (by omega)
      rwa [show ata.transfers + first + (i - first) = ata.transfers + 0 + i by omega] at later

section Turn

variable {fs next : Diskfs} {inode new : Inode} {first last : Nat}

theorem transfersFor_turn (aligned : first % 512 = 0) (more : first < last) :
    transfersFor (last - first) =
      turnTransfers first last (first / 512) + transfersFor (last - (first + chunk first (last - first))) := by
  rw [turnTransfers, transfersFor, transfersFor, chunk]
  split <;> split <;> split <;> split <;> omega

/-- Behind a turn that works and is not the last. -/
theorem NextTurn.storesFrom_iff (turn : NextTurn fs inode first last next new) (aligned : first % 512 = 0)
    (more : first + chunk first (last - first) < last) (works : fs.TurnWorks first last (first / 512)) :
    StoresFrom next new (first + chunk first (last - first)) last ↔ StoresFrom fs inode first last := by
  have position := next_position more
  have transfers := transfersFor_turn aligned (by omega : first < last)
  have others (index : Nat) (behind : first / 512 + 1 ≤ index) := turn.others index (by omega)
  have spare := turn.spare
  have present : next.ata.driveExists next.mountedDrive = fs.ata.driveExists fs.mountedDrive := by
    rw [Ata.driveExists, Ata.driveExists, turn.drives.present, turn.mountedDrive]
  have shifted (count : Nat) : next.ata.Works 0 count ↔ fs.ata.Works (turnTransfers first last (first / 512)) count := by
    rw [Ata.Works, Ata.Works, turn.drives.outcome, turn.transfers]
    simp only [Nat.add_zero]
  have block : (first + chunk first (last - first)) / 512 = first / 512 + 1 := by omega
  have room : holes inode (first / 512) ((last - 1) / 512) =
      holes new (first / 512 + 1) ((last - 1) / 512) + if inode.block (first / 512) = 0 then 1 else 0 := by
    rw [holes_from (by omega), holes_congr others]
  obtain ⟨here, now⟩ := turnWorks_first.mp works
  constructor
  · intro rest
    refine ⟨here, ?_, ?_⟩
    · rw [transfers, works_add]
      exact ⟨now, (shifted _).mp rest.works⟩
    · have enough := rest.room
      rw [block] at enough
      omega
  · intro whole
    refine ⟨present.trans here, ?_, ?_⟩
    · have all := whole.works
      rw [transfers, works_add] at all
      exact (shifted _).mpr all.2
    · have enough := whole.room
      rw [block]
      omega

end Turn

section Loop

variable {fs after : Diskfs} {inode final : Inode} {source : Bytes} {size : Word}

/-- The last turn. -/
theorem storesFrom_last {first last : Nat} (aligned : first % 512 = 0) (more : first < last)
    (done : first + chunk first (last - first) = last) :
    StoresFrom fs inode first last ↔
      fs.TurnWorks first last (first / 512) ∧ (if inode.block (first / 512) = 0 then 1 else 0) ≤ fs.spareBlocks := by
  have transfers : transfersFor (last - first) = turnTransfers first last (first / 512) := by
    rw [transfersFor_turn aligned more, done, Nat.sub_self]
    rfl
  have block : (last - 1) / 512 = first / 512 := by
    unfold chunk at done
    split at done <;> omega
  have room : holes inode (first / 512) ((last - 1) / 512) = if inode.block (first / 512) = 0 then 1 else 0 := by
    rw [block, holes, Finset.Icc_self, Finset.filter_singleton]
    split <;> rfl
  rw [turnWorks_first]
  constructor
  · intro stores
    exact ⟨⟨stores.present, transfers ▸ stores.works⟩, room ▸ stores.room⟩
  · rintro ⟨⟨present, works⟩, enough⟩
    exact ⟨present, transfers ▸ works, room ▸ enough⟩

/-- With everything written the loop ends where it is. -/
theorem writeLoop_over {turns moved count : Nat} (all : size.toNat ≤ moved) (small : moved ≤ 6144)
    (call : writeLoop source 0 size turns fs inode moved = some (some (final, count), after)) :
    final = inode ∧ count = moved ∧ after = fs := by
  have offset : (0 : Word).toNat = 0 := rfl
  cases turns with
  | zero => cases call
  | succ turns =>
    rw [writeLoop_done (by omega) (.inl all)] at call
    cases call
    exact ⟨rfl, rfl, rfl⟩

/-- What the loop has stored when it comes to its end. -/
theorem writeLoop_stored {turns moved : Nat} (small : size.toNat ≤ 6144) (aligned : moved % 512 = 0) (more : moved < size.toNat)
    (call : writeLoop source 0 size turns fs inode moved = some (some (final, size.toNat), after)) :
    StoresFrom fs inode moved size.toNat ∧ Ata.SameDrives fs.ata after.ata ∧ after.mountedDrive = fs.mountedDrive ∧
      after.ata.transfers = fs.ata.transfers + transfersFor (size.toNat - moved) := by
  have offset : (0 : Word).toNat = 0 := rfl
  induction turns generalizing fs inode moved with
  | zero => cases call
  | succ turns ih =>
    have within : moved / 512 < directBlocks := by
      rw [directBlocks]
      omega
    have outcome := @writeLoop_outcome fs inode 0 size moved source turns more (by rwa [offset, Nat.zero_add]) (by omega)
    simp only [offset, Nat.zero_add] at outcome
    obtain ⟨moves, inside, _, boundary⟩ := @chunk_spec moved (size.toNat - moved) (by omega)
    rcases outcome with ⟨_, _, stuck⟩ | ⟨mid, new, claimed, spare, ⟨_, ata, stops⟩ | ⟨works, _, _, _, turn, rest⟩⟩
    · have same := stuck _ call
      simp only [Prod.mk.injEq, Option.some.injEq] at same
      omega
    · rw [stops] at call
      cases call
    · rw [rest] at call
      by_cases last : moved + chunk moved (size.toNat - moved) = size.toNat
      · have enough : (if inode.block (moved / 512) = 0 then 1 else 0) ≤ fs.spareBlocks := by omega
        refine ⟨(storesFrom_last aligned more last).mpr ⟨works, enough⟩, ?_⟩
        obtain ⟨_, _, rfl⟩ := writeLoop_over (by omega) (by omega) call
        refine ⟨turn.drives, turn.mountedDrive, turn.transfers.trans ?_⟩
        rw [transfersFor_turn aligned more, last, Nat.sub_self]
        rfl
      · obtain ⟨stores, drives, drive, transfers⟩ := ih (by omega) (by omega) call
        refine ⟨(turn.storesFrom_iff aligned (by omega) works).mp stores, turn.drives.trans drives,
          drive.trans turn.mountedDrive, ?_⟩
        rw [transfers, turn.transfers, transfersFor_turn aligned more]
        omega

/-- Pointers that are set, and those in front of the loop, stay as they are. -/
theorem writeLoop_pointers {turns moved count : Nat} (within : moved ≤ 6144) (small : size.toNat ≤ 6144)
    (call : writeLoop source 0 size turns fs inode moved = some (some (final, count), after)) {index : Nat}
    (apart : inode.block index ≠ 0 ∨ index < moved / 512) : final.block index = inode.block index := by
  have offset : (0 : Word).toNat = 0 := rfl
  induction turns generalizing fs inode moved with
  | zero => cases call
  | succ turns ih =>
    by_cases done : size.toNat ≤ moved
    · rw [writeLoop_done (by omega) (.inl done)] at call
      cases call
      rfl
    have bound : moved / 512 < directBlocks := by
      rw [directBlocks]
      omega
    have outcome := @writeLoop_outcome fs inode 0 size moved source turns (by omega) (by rwa [offset, Nat.zero_add]) (by omega)
    simp only [offset, Nat.zero_add] at outcome
    obtain ⟨moves, inside, _, _⟩ := @chunk_spec moved (size.toNat - moved) (by omega)
    rcases outcome with ⟨_, _, stuck⟩ | ⟨mid, new, claimed, _, ⟨_, ata, stops⟩ | ⟨_, _, _, _, _, rest⟩⟩
    · cases stuck _ call
      rfl
    · rw [stops] at call
      cases call
    · rw [rest] at call
      have here : new.block index = inode.block index := by
        rcases apart with pointer | before
        · exact claimed.block_kept pointer
        · exact claimed.block_other (Nat.ne_of_lt before)
      rw [ih (by omega) call, here]
      rw [here]
      exact apart.imp_right fun before => by omega

/-- A new pointer that is not zero stands for no block 0, so that block was
taken. -/
theorem Claimed.first_taken {mid : Diskfs} {new : Inode} {index : Nat} (claimed : Claimed fs inode index mid new)
    (hole : inode.block index = 0) (pointer : new.block index ≠ 0) : fs.blockBitmap.test 0 = true := by
  cases claimed with
  | kept other => exact absurd hole other
  | fresh block _ _ _ before =>
    by_contra free
    obtain rfl : block = 0 := by
      by_contra later
      exact free (before 0 (by omega))
    exact pointer (setBlock_self _ _ _)

/-- If no pointer is zero in the end, everything is stored, and block 0 was not
free for one of them. -/
theorem writeLoop_whole {turns moved count : Nat} (small : size.toNat ≤ 6144) (aligned : moved % 512 = 0)
    (more : moved < size.toNat) (call : writeLoop source 0 size turns fs inode moved = some (some (final, count), after))
    (pointers : ∀ index, 512 * index < size.toNat → final.block index ≠ 0) :
    count = size.toNat ∧ (fs.blockBitmap.test 0 = true ∨ holes inode (moved / 512) ((size.toNat - 1) / 512) = 0) := by
  have offset : (0 : Word).toNat = 0 := rfl
  induction turns generalizing fs inode moved with
  | zero => cases call
  | succ turns ih =>
    have bound : moved / 512 < directBlocks := by
      rw [directBlocks]
      omega
    have outcome := @writeLoop_outcome fs inode 0 size moved source turns more (by rwa [offset, Nat.zero_add]) (by omega)
    simp only [offset, Nat.zero_add] at outcome
    obtain ⟨moves, inside, _, boundary⟩ := @chunk_spec moved (size.toNat - moved) (by omega)
    rcases outcome with ⟨hole, _, stuck⟩ | ⟨mid, new, claimed, _, ⟨_, ata, stops⟩ | ⟨_, _, _, _, turn, rest⟩⟩
    · cases stuck _ call
      exact absurd hole (pointers _ (by omega))
    · rw [stops] at call
      cases call
    rw [rest] at call
    have here : new.block (moved / 512) ≠ 0 := by
      by_cases zero : moved + chunk moved (size.toNat - moved) < size.toNat
      · rw [← writeLoop_pointers (by omega) small call (.inr (by omega))]
        exact pointers _ (by omega)
      · obtain ⟨rfl, _, _⟩ := writeLoop_over (by omega) (by omega) call
        exact pointers _ (by omega)
    by_cases last : moved + chunk moved (size.toNat - moved) = size.toNat
    · obtain ⟨_, written, _⟩ := writeLoop_over (by omega) (by omega) call
      refine ⟨written.trans last, ?_⟩
      by_cases hole : inode.block (moved / 512) = 0
      · exact .inl (claimed.first_taken hole here)
      · right
        have block : (size.toNat - 1) / 512 = moved / 512 := by omega
        rw [block, holes, Finset.Icc_self, Finset.filter_singleton, if_neg hole]
        rfl
    · obtain ⟨all, covered⟩ := ih (by omega) (by omega) call
      refine ⟨all, ?_⟩
      by_cases hole : inode.block (moved / 512) = 0
      · exact .inl (claimed.first_taken hole here)
      · have block : (moved + chunk moved (size.toNat - moved)) / 512 = moved / 512 + 1 := by omega
        rw [block, holes_congr fun index behind => turn.others index (by omega)] at covered
        rw [holes_from (by omega), if_neg hole, Nat.add_zero]
        cases claimed with
        | kept _ => exact covered
        | fresh _ zero _ _ _ => exact absurd zero hole

/-- When nothing stands in its way and the blocks belong to the file alone, the
loop stores everything. -/
theorem writeLoop_of_storesFrom {turns moved : Nat} (own : Own fs inode) (small : size.toNat ≤ 6144)
    (aligned : moved % 512 = 0) (more : moved < size.toNat) (enough : 13 ≤ turns + moved / 512)
    (stores : StoresFrom fs inode moved size.toNat) :
    ∃ final after, writeLoop source 0 size turns fs inode moved = some (some (final, size.toNat), after) ∧
      Chunks fs fs.mountedDrive inode source 0 moved after final size.toNat := by
  have offset : (0 : Word).toNat = 0 := rfl
  induction turns generalizing fs inode moved with
  | zero => omega
  | succ turns ih =>
    have bound : moved / 512 < directBlocks := by
      rw [directBlocks]
      omega
    have outcome := @writeLoop_outcome fs inode 0 size moved source turns more (by rwa [offset, Nat.zero_add]) (by omega)
    simp only [offset, Nat.zero_add] at outcome
    obtain ⟨moves, inside, block, boundary⟩ := @chunk_spec moved (size.toNat - moved) (by omega)
    have works : fs.TurnWorks moved size.toNat (moved / 512) := by
      have all := stores.works
      rw [transfersFor_turn aligned more, works_add] at all
      exact turnWorks_first.mpr ⟨stores.present, all.1⟩
    rcases outcome with ⟨hole, none_left, _⟩ | ⟨mid, new, claimed, _, ⟨fails, _⟩ | ⟨_, content, transfers, copied, turn, rest⟩⟩
    · have room := stores.room
      rw [holes_from (by omega), if_pos hole] at room
      omega
    · exact absurd works fails
    · have midOwn := claimed.own own bound
      have nextOwn : Own ((mid.blockStored fs.mountedDrive (new.block (moved / 512)) content).retime transfers) new :=
        ⟨midOwn.taken, midOwn.distinct⟩
      have later : ∃ final after, writeLoop source 0 size turns
          ((mid.blockStored fs.mountedDrive (new.block (moved / 512)) content).retime transfers) new
          (moved + chunk moved (size.toNat - moved)) = some (some (final, size.toNat), after) ∧
          Chunks ((mid.blockStored fs.mountedDrive (new.block (moved / 512)) content).retime transfers) fs.mountedDrive new source 0
            (moved + chunk moved (size.toNat - moved)) after final size.toNat := by
        by_cases last : moved + chunk moved (size.toNat - moved) = size.toNat
        · rw [last]
          cases turns with
          | zero => omega
          | succ turns => exact ⟨_, _, writeLoop_done (by omega) (.inl (Nat.le_refl _)), .done nextOwn source 0 _⟩
        · have chunks := ih nextOwn (by omega) (by omega) (by omega) ((turn.storesFrom_iff aligned (by omega) works).mpr stores)
          rwa [turn.mountedDrive] at chunks
      obtain ⟨final, after, call, chunks⟩ := later
      refine ⟨final, after, rest.trans call, ?_⟩
      have whole := @Chunks.turn fs fs.mountedDrive 0 moved inode source mid new content transfers
        (chunk moved (size.toNat - moved)) after final size.toNat own
      rw [Nat.zero_add] at whole
      exact whole claimed bound moves block (by omega) copied chunks

end Loop

/-- The record has the first `count` bytes of the file. -/
structure Covers (inode : Inode) (count : Nat) : Prop where
  size : count ≤ inode.size.toNat
  pointers : ∀ index, 512 * index < count → inode.block index ≠ 0

/-- A file begins with these bytes, as `diskfs_read` finds it: with the record
in the cache, if it is there. -/
structure FileBegins (fs : Diskfs) (ino : Word) (source : Bytes) (count : Nat) : Prop where
  covers : Covers (fs.record fs.mountedDrive ino) count
  bytes : ∀ place < count, fs.content fs.mountedDrive ((fs.record fs.mountedDrive ino).block (place / 512)) (place % 512) =
    source place

theorem FileBegins.nothing (fs : Diskfs) (ino : Word) (source : Bytes) : fs.FileBegins ino source 0 :=
  ⟨⟨Nat.zero_le _, fun index inside => by omega⟩, fun place inside => by omega⟩

/-- Nothing keeps the bytes from the file: the loop of `diskfs_write` stores them
all, no new pointer is that of block 0, which reads as none, and the record is
written back or need not change. -/
structure StoresText (fs : Diskfs) (inode : Inode) (size : Nat) : Prop where
  stores : StoresFrom fs inode 0 size
  pointers : fs.blockBitmap.test 0 = true ∨ holes inode 0 ((size - 1) / 512) = 0
  record : fs.ata.Works (transfersFor size) 2 ∨ holes inode 0 ((size - 1) / 512) = 0 ∧ size ≤ inode.size.toNat

/-- The record is found, and a `diskfs_write` from the beginning stores all it was
given. -/
def WritesText (fs : Diskfs) (ino : Word) (size : Nat) : Prop :=
  fs.mountedDrive ≠ 0xFF ∧ ∃ inode mid, fs.readInode fs.mountedDrive ino = some (.ok inode, mid) ∧ StoresText mid inode size

/-- It finds no block for the first pointer, which is zero. -/
def WritesNone (fs : Diskfs) (ino : Word) : Prop :=
  fs.mountedDrive ≠ 0xFF ∧ ∃ inode mid, fs.readInode fs.mountedDrive ino = some (.ok inode, mid) ∧
    inode.block 0 = 0 ∧ bitmapFindFree mid.blockBitmap mid.superblock.totalBlocks = some (-1)

/-- The pointers of the record lead to taken blocks, each to another. -/
def OwnsBlocks (fs : Diskfs) (ino : Word) : Prop :=
  ∀ inode mid, fs.readInode fs.mountedDrive ino = some (.ok inode, mid) → Own mid inode

theorem holes_eq_zero_iff {inode : Inode} {lower upper : Nat} :
    holes inode lower upper = 0 ↔ ∀ index, lower ≤ index → index ≤ upper → inode.block index ≠ 0 := by
  rw [holes, Finset.card_eq_zero, Finset.filter_eq_empty_iff]
  simp only [Finset.mem_Icc, and_imp]

section Record

variable {fs after : Diskfs} {drive : Byte} {ino : Word} {inode : Inode} {ret : Int}

/-- `write_inode` answers 0 when its two transfers work. -/
theorem writeInode_zero_iff (valid : ino.toNat < maxInodes) (call : fs.writeInode drive ino inode = some (ret, after)) :
    ret = 0 ↔ fs.ata.driveExists drive = true ∧ fs.ata.Works 0 2 := by
  rw [works_two]
  rw [writeInode, if_neg (Nat.not_le_of_lt valid)] at call
  by_cases first : Ready fs.ata drive
  · rw [first.readSectors] at call
    dsimp only at call
    rw [if_neg (not_not.mpr rfl)] at call
    split at call
    · cases call
    · by_cases second : Ready fs.ata.tick drive
      · rw [second.writeSectors] at call
        dsimp only at call
        rw [if_neg (not_not.mpr rfl)] at call
        refine iff_of_true ?_ ⟨first, second⟩
        split at call <;> cases call <;> rfl
      · rw [if_pos (by rw [writeSectors_fails second]; decide), writeSectors_fails second] at call
        cases call
        exact iff_of_false (by decide) fun both => second both.2
  · dsimp only at call
    rw [if_pos (by rw [readSectors_fails first]; decide), readSectors_fails first] at call
    cases call
    exact iff_of_false (by decide) fun both => first both.1

/-- It touches no data sector. -/
theorem writeInode_data (valid : ino.toNat < maxInodes) (call : fs.writeInode drive ino inode = some (ret, after))
    {sector : Nat} (behind : 545 ≤ sector) : after.ata.sectors drive sector = fs.ata.sectors drive sector := by
  have place := @sectorOf_inodeSector ino valid
  have limit : ino.toNat < 512 := valid
  have loaded := fs.ata.readSectors_sectors drive (inodeSector ino) 1 Bytes.zero
  rw [writeInode, if_neg (Nat.not_le_of_lt valid)] at call
  cases first : fs.ata.readSectors drive (inodeSector ino) 1 Bytes.zero with
  | mk readRet rest =>
    rw [first] at call loaded
    dsimp only at call loaded
    split at call
    · cases call
      exact congrFun (congrFun loaded drive) sector
    · split at call
      · cases call
      · have stored := @Ata.writeSectors_outside rest.2 drive 1 (inodeSector ino)
          (rest.1.copy (inodeOffset ino) inode 0 Inode.bytes) sector (.inr (by omega))
        rw [loaded] at stored
        split at call
        · cases call
          exact stored
        · split at call <;> cases call <;> exact stored

/-- `diskfs_sync` leaves the cache and all behind the bitmaps as they are. -/
theorem sync_apart (fs : Diskfs) : CacheKept fs fs.sync.2 ∧
    ∀ sector, 33 ≤ sector → fs.sync.2.ata.sectors fs.mountedDrive sector = fs.ata.sectors fs.mountedDrive sector := by
  rw [sync]
  split
  · exact ⟨.refl fs, fun _ _ => rfl⟩
  rw [writeSuperblock]
  dsimp only
  have superblockDrives := fs.ata.writeSectors_drives fs.mountedDrive 0 1 fs.superblock
  have superblockSectors (sector : Nat) (behind : 33 ≤ sector) :=
    @Ata.writeSectors_outside fs.ata fs.mountedDrive 1 0 fs.superblock sector (.inr (le_trans (by decide) behind))
  generalize (fs.ata.writeSectors fs.mountedDrive 0 1 fs.superblock).2 = ata at *
  rw [writeBitmaps]
  dsimp only
  have inodeDrives := superblockDrives.trans (ata.writeSectors_drives fs.mountedDrive 1 16 fs.inodeBitmap)
  have inodeSectors (sector : Nat) (behind : 33 ≤ sector) :=
    (@Ata.writeSectors_outside ata fs.mountedDrive 16 1 fs.inodeBitmap sector (.inr (le_trans (by decide) behind))).trans
      (superblockSectors sector behind)
  generalize ata.writeSectors fs.mountedDrive 1 16 fs.inodeBitmap = inodes at *
  split
  · exact ⟨cacheKept_ata inodeDrives, inodeSectors⟩
  · refine ⟨cacheKept_ata (inodeDrives.trans (inodes.2.writeSectors_drives fs.mountedDrive 17 16 fs.blockBitmap)), ?_⟩
    intro sector behind
    exact (@Ata.writeSectors_outside inodes.2 fs.mountedDrive 16 17 fs.blockBitmap sector
      (.inr (le_trans (by decide) behind))).trans (inodeSectors sector behind)

end Record

section Write

variable {fs mid after last : Diskfs} {ino size now : Word} {inode final : Inode} {source : Bytes} {moved : Nat} {ret count : Int}

/-- A `diskfs_write` that does not fail reads the record, runs its loop to the end
and writes the record back, or tries to. -/
theorem write_steps (small : size.toNat ≤ 6144) (natural : 0 ≤ count)
    (call : fs.write ino source 0 size now = some (count, after)) :
    fs.mountedDrive ≠ 0xFF ∧ ∃ inode mid final moved last ret,
      fs.readInode fs.mountedDrive ino = some (.ok inode, mid) ∧
      writeLoop source 0 size maxTurns mid inode 0 = some (some (final, moved), last) ∧ count = (moved : Nat) ∧
      last.writeInode last.mountedDrive ino (finished final (0 + BitVec.ofNat 32 moved) now) = some (ret, after) := by
  have offset : (0 : Word).toNat = 0 := rfl
  rcases write_cases call with ⟨_, rfl⟩ | ⟨mounted, inode, mid, load, ⟨_, rfl⟩ | ⟨final, moved, last, ret, loop, same, record⟩⟩
  · omega
  · omega
  · rw [cutSize_of_le (by rw [offset]; omega)] at loop
    exact ⟨mounted, inode, mid, final, moved, last, ret, load, loop, same, record⟩

theorem write_within (small : size.toNat ≤ 6144) (natural : 0 ≤ count)
    (call : fs.write ino source 0 size now = some (count, after)) : count ≤ size.toNat := by
  obtain ⟨_, _, _, final, moved, _, _, _, loop, rfl, _⟩ := write_steps small natural call
  obtain ⟨_, _, upper, _⟩ := (writeLoop_kept (.inr rfl) (Nat.zero_le _) loop).2 final moved rfl
  exact Int.ofNat_le.mpr upper

/-- The record after these steps, and after the `diskfs_sync` of `fs_write`. -/
theorem record_after (load : fs.readInode fs.mountedDrive ino = some (.ok inode, mid))
    (loop : writeLoop source 0 size maxTurns mid inode 0 = some (some (final, moved), last))
    (record : last.writeInode last.mountedDrive ino (finished final (0 + BitVec.ofNat 32 moved) now) = some (ret, after)) :
    ino.toNat < maxInodes ∧ final.size = inode.size ∧ last.mountedDrive = fs.mountedDrive ∧
      after.mountedDrive = fs.mountedDrive ∧ after.sync.2.mountedDrive = fs.mountedDrive ∧
      Seen after.sync.2 ino (if ret = 0 then finished final (0 + BitVec.ofNat 32 moved) now else inode) := by
  obtain ⟨seen, _, mountedDrive, _, _⟩ := seen_of_readInode load
  obtain ⟨kept, progress⟩ := writeLoop_kept (.inr rfl) (Nat.zero_le _) loop
  obtain ⟨sameDrive, stored⟩ := (seen.kept kept).writeInode record
  have drive := kept.mountedDrive.trans mountedDrive
  have synced := (sync_apart after).1
  exact ⟨seen.1, (progress final moved rfl).1, drive, sameDrive.trans drive, synced.mountedDrive.trans (sameDrive.trans drive),
    stored.kept synced⟩

/-- If the record has all the bytes after a call that does not fail, nothing has
kept them from the file. -/
theorem writesText_of_covers (positive : 0 < size.toNat) (small : size.toNat ≤ 6144) (natural : 0 ≤ count)
    (call : fs.write ino source 0 size now = some (count, after))
    (covers : Covers (after.sync.2.record after.sync.2.mountedDrive ino) size.toNat) :
    fs.WritesText ino size.toNat ∧ count = size.toNat := by
  obtain ⟨mounted, inode, mid, final, moved, last, ret, load, loop, amount, record⟩ := write_steps small natural call
  obtain ⟨valid, _, _, _, _, seen⟩ := record_after load loop record
  rw [seen.record] at covers
  have bound (index : Nat) (inside : 512 * index < size.toNat) : index < directBlocks := by
    rw [directBlocks]
    omega
  have pointers (index : Nat) (inside : 512 * index < size.toNat) : final.block index ≠ 0 := by
    have pointer := covers.pointers index inside
    split at pointer
    · rwa [finished_block (bound index inside)] at pointer
    · rwa [writeLoop_pointers (Nat.zero_le _) small loop (.inl pointer)]
  obtain ⟨rfl, first⟩ := writeLoop_whole small (Nat.zero_mod _) positive loop pointers
  obtain ⟨stores, drives, drive, transfers⟩ := writeLoop_stored small (Nat.zero_mod _) positive loop
  rw [Nat.zero_div] at first
  refine ⟨⟨mounted, inode, mid, load, stores, first, ?_⟩, amount⟩
  by_cases written : ret = 0
  · left
    have works := ((writeInode_zero_iff valid record).mp written).2
    rw [Ata.Works, drives.outcome, transfers] at works
    simpa only [Ata.Works, Nat.sub_zero, Nat.add_zero] using works
  · right
    rw [if_neg written] at covers
    exact ⟨holes_eq_zero_iff.mpr fun index _ upper => covers.pointers index (by omega), covers.size⟩

/-- Then they are in the file. -/
theorem write_of_writesText (slot : ino.toNat % 4 ≠ 3) (positive : 0 < size.toNat) (small : size.toNat ≤ 6144)
    (own : fs.OwnsBlocks ino) (writes : fs.WritesText ino size.toNat) (source : Bytes) (now : Word) :
    ∃ after, fs.write ino source 0 size now = some ((size.toNat : Int), after) ∧
      after.sync.2.FileBegins ino source size.toNat := by
  have offset : (0 : Word).toNat = 0 := rfl
  obtain ⟨mounted, inode, mid, load, stores, first, back⟩ := writes
  obtain ⟨final, last, loop, chunks⟩ := @writeLoop_of_storesFrom mid inode source size maxTurns 0 (own inode mid load) small
    (Nat.zero_mod _) positive (by decide) stores
  obtain ⟨_, drives, lastDrive, transfers⟩ := writeLoop_stored small (Nat.zero_mod _) positive loop
  obtain ⟨⟨ret, after⟩, record⟩ := @writeInode_returns last last.mountedDrive ino slot
    (finished final (0 + BitVec.ofNat 32 size.toNat) now)
  obtain ⟨valid, sameSize, lastMounted, afterMounted, syncedMounted, seen⟩ := record_after load loop record
  refine ⟨after, ?_, ?_⟩
  · rw [write_loaded mounted load, cutSize_of_le (by rw [offset]; omega), loop]
    simp only [Option.bind_some, Option.elim_some]
    rw [record]
    rfl
  have midDrive : mid.mountedDrive = fs.mountedDrive := lastDrive.symm.trans lastMounted
  have pointers (index : Nat) (inside : 512 * index < size.toNat) : final.block index ≠ 0 := by
    have granted := chunks.granted (512 * index) (Nat.zero_le _) inside
    rw [Nat.zero_add, Nat.mul_div_cancel_left _ (by decide)] at granted
    exact granted (first.imp_right fun whole => holes_eq_zero_iff.mp whole index (Nat.zero_le _) (by omega))
  -- Where the record is not written back, the old one need not change.
  have needless (failed : ret ≠ 0) : holes inode 0 ((size.toNat - 1) / 512) = 0 ∧ size.toNat ≤ inode.size.toNat := by
    refine back.resolve_left fun works => failed ((writeInode_zero_iff valid record).mpr ⟨?_, ?_⟩)
    · rw [Ata.driveExists, drives.present, lastDrive]
      exact stores.present
    · rw [Ata.Works, drives.outcome, transfers]
      simpa only [Ata.Works, Nat.sub_zero, Nat.add_zero] using works
  have same (index : Nat) (inside : 512 * index < size.toNat) :
      (after.sync.2.record after.sync.2.mountedDrive ino).block index = final.block index := by
    rw [seen.record]
    split
    · exact finished_block (by rw [directBlocks]; omega)
    · next failed =>
      have whole := holes_eq_zero_iff.mp (needless failed).1 index (Nat.zero_le _) (by omega)
      exact (chunks.kept index whole).symm
  refine ⟨⟨?_, fun index inside => same index inside ▸ pointers index inside⟩, ?_⟩
  · have value : ((0 : Word) + BitVec.ofNat 32 size.toNat).toNat = size.toNat := by
      rw [position_eq (by omega), offset, Nat.zero_add]
    rw [seen.record]
    split
    · rw [finished_size, sameSize]
      split
      · exact value.ge
      · next inside =>
        rw [gt_iff_lt, BitVec.lt_def, value] at inside
        omega
    · next failed => exact (needless failed).2
  · intro place inside
    have nonzero := pointers (place / 512) (by omega)
    have taken := chunks.own.taken (place / 512) (by rw [directBlocks]; omega) nonzero
    have stored := chunks.stored place (Nat.zero_le _) inside (by rwa [Nat.zero_add])
    have synced := (sync_apart after).2 (545 + (final.block (place / 512)).toNat) (by omega)
    have apart := @writeInode_data _ _ _ _ _ _ valid record (545 + (final.block (place / 512)).toNat) (by omega)
    rw [afterMounted] at synced
    rw [lastMounted] at apart
    rw [Nat.zero_add, ← lastDrive, lastMounted] at stored
    rw [same _ (by omega), content_eq taken.1 (Nat.mod_lt _ (by decide)), syncedMounted, synced, apart]
    exact stored

/-- A `diskfs_write` answers that it stored no byte when there is no block for the
first one. -/
theorem write_none_iff (slot : ino.toNat % 4 ≠ 3) (positive : 0 < size.toNat) (small : size.toNat ≤ 6144) :
    (∃ after, fs.write ino source 0 size now = some (0, after)) ↔ fs.WritesNone ino := by
  have offset : (0 : Word).toNat = 0 := rfl
  constructor
  · rintro ⟨after, call⟩
    obtain ⟨mounted, inode, mid, final, moved, last, ret, load, loop, amount, _⟩ := write_steps small (Int.le_refl _) call
    obtain rfl : moved = 0 := by omega
    have stuck : inode.block 0 = 0 ∧ bitmapFindFree mid.blockBitmap mid.superblock.totalBlocks = some (-1) := by
      by_contra room
      have some_moved := writeLoop_starts (Nat.ne_of_gt positive) (by decide) (by rwa [not_and_or] at room) loop
      exact Nat.lt_irrefl _ some_moved
    exact ⟨mounted, inode, mid, load, stuck⟩
  · rintro ⟨mounted, inode, mid, load, hole, full⟩
    have idle : writeLoop source 0 size maxTurns mid inode 0 = some (some (inode, 0), mid) :=
      writeLoop_idle (.inr (.inr ⟨hole, full⟩))
    obtain ⟨stored, record⟩ := @writeInode_returns mid mid.mountedDrive ino slot (finished inode (0 + BitVec.ofNat 32 0) now)
    refine ⟨stored.2, ?_⟩
    rw [write_loaded mounted load, cutSize_of_le (by rw [offset]; omega), idle]
    simp only [Option.bind_some, Option.elim_some]
    rw [record]
    rfl

end Write

end MexOS.Fs.Diskfs
