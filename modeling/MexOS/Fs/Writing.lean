import MexOS.Fs.Reading

/-! `diskfs_write`: every turn of its loop claims a block if the pointer is
zero and stores one block. -/

namespace MexOS.Fs.Diskfs

open MexOS.Machine

/-- The blocks behind the pointers of the inode are taken, and no two pointers lead
to one block. -/
structure Own (fs : Diskfs) (inode : Inode) : Prop where
  taken : ∀ index < directBlocks, inode.block index ≠ 0 → fs.taken (inode.block index).toNat
  distinct : ∀ first < directBlocks, ∀ second < directBlocks, inode.block first ≠ 0 → inode.block first = inode.block second →
    first = second

theorem Draft.own {fs : Diskfs} {drive : Byte} {ino : Nat} {inode : Inode} (draft : Draft fs drive ino inode)
    (allocated : fs.allocated ino) : Own fs inode :=
  ⟨fun _ bound => draft.block_taken allocated bound, fun _ firstBound _ => draft.blocks_distinct allocated firstBound⟩

/-- The pointer of one turn is set already, or gets the first free block. -/
inductive Claimed (fs : Diskfs) (inode : Inode) (index : Nat) : Diskfs → Inode → Prop
  | kept : inode.block index ≠ 0 → Claimed fs inode index fs inode
  | fresh (block : Nat) : inode.block index = 0 → block < maxBlocks → fs.blockBitmap.test block = false →
    (∀ earlier < block, fs.blockBitmap.test earlier = true) →
    Claimed fs inode index (fs.blockTaken block) (inode.setBlock index (BitVec.ofNat 32 block))

namespace Claimed

variable {fs mid : Diskfs} {drive : Byte} {ino index : Nat} {inode new : Inode}

theorem mounted (claimed : Claimed fs inode index mid new) (mounted : Mounted fs drive) : Mounted mid drive := by
  cases claimed with
  | kept _ => exact mounted
  | fresh block _ _ _ _ => exact mounted.blockTaken block

theorem draft (claimed : Claimed fs inode index mid new) (draft : Draft fs drive ino inode) : Draft mid drive ino new := by
  cases claimed with
  | kept _ => exact draft
  | fresh block _ small free _ => exact draft.blockTaken small free

theorem ata (claimed : Claimed fs inode index mid new) : mid.ata = fs.ata := by
  cases claimed <;> rfl

theorem inodeBitmap (claimed : Claimed fs inode index mid new) : mid.inodeBitmap = fs.inodeBitmap := by
  cases claimed <;> rfl

theorem taken (claimed : Claimed fs inode index mid new) {block : Nat} (present : fs.taken block) : mid.taken block := by
  cases claimed with
  | kept _ => exact present
  | fresh other _ _ _ _ => exact taken_blockTaken.mpr ⟨present.1, .inr present⟩

/-- The block the turn stores to. -/
theorem target_taken (claimed : Claimed fs inode index mid new) (own : Own fs inode) (bound : index < directBlocks) :
    mid.taken (new.block index).toNat := by
  cases claimed with
  | kept nonzero => exact own.taken index bound nonzero
  | fresh block _ small free _ =>
    have value : (BitVec.ofNat 32 block).toNat = block := by
      have limit : block < 65536 := small
      rw [BitVec.toNat_ofNat]
      omega
    rw [setBlock_self, value]
    exact taken_blockTaken.mpr ⟨small, .inl rfl⟩

/-- Blocks that were taken and are not behind the pointer are not the target. -/
theorem target_ne (claimed : Claimed fs inode index mid new) {block : Nat} (present : fs.taken block)
    (differ : (inode.block index).toNat ≠ block) : (new.block index).toNat ≠ block := by
  cases claimed with
  | kept _ => exact differ
  | fresh other _ small free _ =>
    have limit : other < 65536 := small
    rw [setBlock_self, BitVec.toNat_ofNat, Nat.mod_eq_of_lt (by omega)]
    intro same
    rw [same, present.2] at free
    cases free

theorem block_other (claimed : Claimed fs inode index mid new) {other : Nat} (differ : other ≠ index) :
    new.block other = inode.block other := by
  cases claimed with
  | kept _ => rfl
  | fresh _ _ _ _ _ => exact setBlock_other _ differ

theorem block_kept (claimed : Claimed fs inode index mid new) {other : Nat} (nonzero : inode.block other ≠ 0) :
    new.block other = inode.block other := by
  by_cases same : other = index
  · subst same
    cases claimed with
    | kept _ => rfl
    | fresh _ zero _ _ _ => exact absurd zero nonzero
  · exact claimed.block_other same

theorem own (claimed : Claimed fs inode index mid new) (own : Own fs inode) (bound : index < directBlocks) : Own mid new := by
  refine ⟨fun other small nonzero => ?_, fun first firstSmall second secondSmall nonzero same => ?_⟩
  · by_cases here : other = index
    · subst here
      exact claimed.target_taken own bound
    · rw [claimed.block_other here] at nonzero ⊢
      exact claimed.taken (own.taken other small nonzero)
  · by_cases here : first = index
    · by_cases there : second = index
      · exact here.trans there.symm
      · subst here
        rw [claimed.block_other there] at same
        by_cases kept : inode.block first = inode.block second
        · exact own.distinct first firstSmall second secondSmall (by rw [kept, ← same]; exact nonzero) kept
        · exact absurd (congrArg BitVec.toNat same) (claimed.target_ne (own.taken second secondSmall (same ▸ nonzero)) fun equal =>
            kept (BitVec.eq_of_toNat_eq equal))
    · rw [claimed.block_other here] at nonzero same
      by_cases there : second = index
      · subst there
        by_cases kept : inode.block second = inode.block first
        · exact own.distinct first firstSmall second secondSmall nonzero kept.symm
        · exact absurd (congrArg BitVec.toNat same.symm) (claimed.target_ne (own.taken first firstSmall nonzero) fun equal =>
            kept (BitVec.eq_of_toNat_eq equal))
      · rw [claimed.block_other there] at same
        exact own.distinct first firstSmall second secondSmall nonzero same

/-- The new pointer is not zero unless block 0 was free. -/
theorem target_ne_zero (claimed : Claimed fs inode index mid new)
    (grant : fs.blockBitmap.test 0 = true ∨ inode.block index ≠ 0) : new.block index ≠ 0 := by
  cases claimed with
  | kept nonzero => exact nonzero
  | fresh block zero small free _ =>
    have limit : block < 65536 := small
    rw [setBlock_self]
    intro null
    have value := congrArg BitVec.toNat null
    rw [BitVec.toNat_ofNat, Nat.mod_eq_of_lt (by omega)] at value
    have first : block = 0 := value
    subst first
    rcases grant with present | nonzero
    · rw [present] at free
      cases free
    · exact nonzero zero

theorem bytes_outside (claimed : Claimed fs inode index mid new) (bound : index < directBlocks) {place : Nat}
    (outside : place < 8 ∨ 56 ≤ place) : new place = inode place := by
  have limit : index < 12 := bound
  cases claimed with
  | kept _ => rfl
  | fresh _ _ _ _ _ => exact Bytes.setWord_outside (by omega)

end Claimed

section Turn

variable {fs : Diskfs} {drive : Byte} {ino : Nat} {inode : Inode} {source : Bytes} {offset size : Word}

theorem claimBlock_spec (mounted : Mounted fs drive) (inode : Inode) (index : Nat) :
    fs.claimBlock inode index = some (none, fs) ∨
      ∃ mid new, Claimed fs inode index mid new ∧ fs.claimBlock inode index = some (some new, mid) := by
  rw [claimBlock]
  by_cases zero : inode.block index = 0
  · rw [if_pos zero]
    rcases allocBlock_spec mounted.totalBlocks with ⟨_, full⟩ | ⟨block, small, free, before, taken⟩
    · left
      rw [full]
      rfl
    · right
      refine ⟨_, _, .fresh block zero small free before, ?_⟩
      rw [taken]
      simp
  · rw [if_neg zero]
    exact .inr ⟨fs, inode, .kept zero, rfl⟩

/-- The block that a turn stores to, afterwards. -/
def chunkStored (fs : Diskfs) (drive : Byte) (block : Word) (start : Nat) (source : Bytes) (moved length : Nat) : Bytes :=
  (if start ≠ 0 ∨ length < 512 then fs.content drive block else Bytes.zero).copy start source moved length

theorem storeChunk_works (working : fs.ata.Working fs.mountedDrive) (block : Word) (start : Nat) (source : Bytes)
    (moved length : Nat) :
    ∃ transfers, fs.storeChunk block start source moved length = (0, (fs.blockStored fs.mountedDrive block
      (fs.chunkStored fs.mountedDrive block start source moved length)).retime transfers) := by
  have count : (1 : Nat) ≠ 0 := by decide
  by_cases partly : start ≠ 0 ∨ length < 512
  · refine ⟨fs.ata.transfers + 1 + 1, ?_⟩
    rw [storeChunk, chunkStored, if_pos partly, if_pos partly, working.readSectors count]
    simp only [ne_eq, not_true_eq_false, ↓reduceIte]
    rw [working.tick.writeSectors count]
    rfl
  · refine ⟨fs.ata.transfers + 1, ?_⟩
    rw [storeChunk, chunkStored, if_neg partly, if_neg partly]
    simp only [ne_eq, not_true_eq_false, ↓reduceIte]
    rw [working.writeSectors count]
    rfl

theorem storeChunk_eq (mounted : Mounted fs drive) (block : Word) (start : Nat) (source : Bytes) (moved length : Nat) :
    ∃ transfers, fs.storeChunk block start source moved length =
      (0, (fs.blockStored drive block (fs.chunkStored drive block start source moved length)).retime transfers) := by
  have same := mounted.mounted
  subst same
  exact storeChunk_works mounted.working block start source moved length

theorem storeChunk_spec (mounted : Mounted fs drive) (block : Word) (start : Nat) (source : Bytes) (moved length : Nat) :
    ∃ content transfers,
      (∀ lane < length, content (start + lane) = source (moved + lane)) ∧
      fs.storeChunk block start source moved length = (0, (fs.blockStored drive block content).retime transfers) := by
  obtain ⟨transfers, store⟩ := storeChunk_eq mounted block start source moved length
  refine ⟨_, transfers, ?_, store⟩
  intro lane inside
  rw [chunkStored, Bytes.copy_inside (by omega) (by omega), Nat.add_sub_cancel_left]

/-- One turn of the loop ends it because the disk is full, or claims a block,
stores the bytes and goes on. -/
theorem writeLoop_turn (mounted : Mounted fs drive) (inode : Inode) (source : Bytes) {moved : Nat} (turns : Nat)
    (more : moved < size.toNat) (small : offset.toNat + moved < 2 ^ 32)
    (bound : (offset.toNat + moved) / 512 < directBlocks) :
    writeLoop source offset size (turns + 1) fs inode moved = some (some (inode, moved), fs) ∨
      ∃ mid new content transfers, Claimed fs inode ((offset.toNat + moved) / 512) mid new ∧
        (∀ lane < chunk (offset.toNat + moved) (size.toNat - moved),
          content ((offset.toNat + moved) % 512 + lane) = source (moved + lane)) ∧
        writeLoop source offset size (turns + 1) fs inode moved =
          writeLoop source offset size turns
            ((mid.blockStored drive (new.block ((offset.toNat + moved) / 512)) content).retime transfers) new
            (moved + chunk (offset.toNat + moved) (size.toNat - moved)) := by
  rw [writeLoop, position_eq small, if_neg (by omega), if_neg (by omega)]
  rcases claimBlock_spec mounted inode ((offset.toNat + moved) / 512) with full | ⟨mid, new, claimed, call⟩
  · left
    rw [full]
  · right
    obtain ⟨content, transfers, copied, store⟩ := storeChunk_spec (claimed.mounted mounted)
      (new.block ((offset.toNat + moved) / 512)) ((offset.toNat + moved) % 512) source moved
      (chunk (offset.toNat + moved) (size.toNat - moved))
    refine ⟨mid, new, content, transfers, claimed, copied, ?_⟩
    rw [call]
    simp only
    rw [store]
    rfl

end Turn

/-- What the loop of `diskfs_write` stores from `moved` bytes on until `count` bytes
are written. -/
structure Chunks (fs : Diskfs) (drive : Byte) (inode : Inode) (source : Bytes) (first moved : Nat)
    (after : Diskfs) (final : Inode) (count : Nat) : Prop where
  lower : moved ≤ count
  inside : moved < count → first + count ≤ 6144
  inodeBitmap : after.inodeBitmap = fs.inodeBitmap
  taken : ∀ block, fs.taken block → after.taken block
  table : ∀ sector < 545, after.ata.sectors drive sector = fs.ata.sectors drive sector
  /-- Blocks that were taken stay as they are, but for those in the range. -/
  frame : ∀ block, fs.taken block →
    (∀ place, moved ≤ place → place < count → (inode.block ((first + place) / 512)).toNat ≠ block) →
    after.ata.sectors drive (545 + block) = fs.ata.sectors drive (545 + block)
  fields : ∀ place, place < 8 ∨ 56 ≤ place → final place = inode place
  kept : ∀ index, inode.block index ≠ 0 → final.block index = inode.block index
  untouched : ∀ index, (∀ place, moved ≤ place → place < count → (first + place) / 512 ≠ index) →
    final.block index = inode.block index
  granted : ∀ place, moved ≤ place → place < count →
    fs.blockBitmap.test 0 = true ∨ inode.block ((first + place) / 512) ≠ 0 → final.block ((first + place) / 512) ≠ 0
  own : Own after final
  stored : ∀ place, moved ≤ place → place < count → final.block ((first + place) / 512) ≠ 0 →
    after.ata.sectors drive (545 + (final.block ((first + place) / 512)).toNat) ((first + place) % 512) = source place

/-- On a consistent disk the inode stays a draft. -/
structure Progress (fs : Diskfs) (drive : Byte) (ino : Nat) (inode : Inode) (source : Bytes) (first moved : Nat)
    (after : Diskfs) (final : Inode) (count : Nat) : Prop extends Chunks fs drive inode source first moved after final count where
  draft : Draft after drive ino final

namespace Chunks

variable {fs : Diskfs} {drive : Byte} {first moved : Nat} {inode : Inode} {source : Bytes}

/-- Nothing is left to do. -/
theorem done (own : Own fs inode) (source : Bytes) (first moved : Nat) :
    Chunks fs drive inode source first moved fs inode moved where
  lower := Nat.le_refl _
  inside := by omega
  inodeBitmap := rfl
  taken _ present := present
  table _ _ := rfl
  frame _ _ _ := rfl
  fields _ _ := rfl
  kept _ _ := rfl
  untouched _ _ := rfl
  granted := by omega
  own := own
  stored := by omega

/-- One turn in front of what the rest of the loop does. -/
theorem turn {mid : Diskfs} {new : Inode} {content : Bytes} {transfers length : Nat} {after : Diskfs} {final : Inode}
    {count : Nat} (own : Own fs inode) (claimed : Claimed fs inode ((first + moved) / 512) mid new)
    (bound : (first + moved) / 512 < directBlocks) (positive : 0 < length) (block : (first + moved) % 512 + length ≤ 512)
    (boundary : moved + length < count → (first + moved) % 512 + length = 512)
    (copied : ∀ lane < length, content ((first + moved) % 512 + lane) = source (moved + lane))
    (rest : Chunks ((mid.blockStored drive (new.block ((first + moved) / 512)) content).retime transfers) drive new
      source first (moved + length) after final count) :
    Chunks fs drive inode source first moved after final count := by
  have limit : (first + moved) / 512 < 12 := bound
  have target := claimed.target_taken own bound
  have midOwn := claimed.own own bound
  have reached := rest.lower
  -- The places of this turn share one block; those of later turns lie in later blocks.
  have index_here (place : Nat) (lower : moved ≤ place) (upper : place < moved + length) :
      (first + place) / 512 = (first + moved) / 512 := by omega
  have index_later (place : Nat) (lower : moved + length ≤ place) (upper : place < count) :
      (first + place) / 512 ≠ (first + moved) / 512 := by
    have ended := boundary (by omega)
    omega
  have own_block : (mid.blockStored drive (new.block ((first + moved) / 512)) content).ata.sectors drive
      (545 + (new.block ((first + moved) / 512)).toNat) = content := blockStored_self _ _ target.1 _
  have other_sector (sector : Nat) (other : sector ≠ 545 + (new.block ((first + moved) / 512)).toNat) :
      (mid.blockStored drive (new.block ((first + moved) / 512)) content).ata.sectors drive sector =
        fs.ata.sectors drive sector := by
    rw [blockStored_other _ _ target.1 _ other, claimed.ata]
  refine ⟨by omega, ?_, ?_, ?_, ?_, ?_, ?_, ?_, ?_, ?_, rest.own, ?_⟩
  · intro _
    by_cases more : moved + length < count
    · exact rest.inside more
    · omega
  · rw [rest.inodeBitmap]
    exact claimed.inodeBitmap
  · intro other present
    exact rest.taken other (claimed.taken present)
  · intro sector low
    rw [rest.table sector low]
    exact other_sector sector (by omega)
  · intro other present apart
    have differ := claimed.target_ne present (apart moved (Nat.le_refl _) (by omega))
    rw [rest.frame other (claimed.taken present)]
    · exact other_sector _ (by omega)
    · intro place lower upper
      rw [claimed.block_other (index_later place lower upper)]
      exact apart place (by omega) upper
  · intro place outside
    rw [rest.fields place outside, claimed.bytes_outside bound outside]
  · intro index nonzero
    have same := claimed.block_kept nonzero
    rw [rest.kept index (same ▸ nonzero), same]
  · intro index apart
    rw [rest.untouched index fun place lower upper => apart place (by omega) upper]
    exact claimed.block_other fun same => apart moved (Nat.le_refl _) (by omega) same.symm
  · intro place lower upper grant
    by_cases here : place < moved + length
    · rw [index_here place lower here] at grant ⊢
      have nonzero := claimed.target_ne_zero grant
      rw [rest.kept _ nonzero]
      exact nonzero
    · apply rest.granted place (by omega) upper
      rcases grant with present | nonzero
      · exact .inl (claimed.taken ⟨by decide, present⟩).2
      · right
        rw [claimed.block_kept nonzero]
        exact nonzero
  · intro place lower upper nonzero
    by_cases here : place < moved + length
    · rw [index_here place lower here] at nonzero ⊢
      have final_eq := rest.untouched ((first + moved) / 512) index_later
      rw [final_eq] at nonzero ⊢
      have kept := rest.frame (new.block ((first + moved) / 512)).toNat target (by
        intro later lower upper same
        have equal := BitVec.eq_of_toNat_eq same
        have limit := rest.inside (by omega)
        have position := midOwn.distinct _ bound _ (by rw [directBlocks]; omega) nonzero equal.symm
        exact index_later later lower upper position.symm)
      have lane : (first + place) % 512 = (first + moved) % 512 + (place - moved) := by omega
      have source_place : moved + (place - moved) = place := by omega
      have stored := copied (place - moved) (by omega)
      rw [kept]
      change (mid.blockStored drive (new.block ((first + moved) / 512)) content).ata.sectors drive _ _ = _
      rw [own_block, lane, stored, source_place]
    · exact rest.stored place (by omega) upper nonzero

end Chunks

section Loop

variable {fs : Diskfs} {drive : Byte} {ino : Nat} {inode : Inode} {offset size : Word}

/-- The loop of `diskfs_write` comes to its end. -/
theorem writeLoop_spec (draft : Draft fs drive ino inode) (allocated : fs.allocated ino) (source : Bytes)
    {turns moved : Nat} (progress : moved ≤ size.toNat) (small : offset.toNat + moved < 2 ^ 32) (positive : 1 ≤ turns)
    (enough : 13 ≤ turns + (offset.toNat + moved) / 512 ∨ size.toNat ≤ moved) :
    ∃ after final count, writeLoop source offset size turns fs inode moved = some (some (final, count), after) ∧
      count ≤ size.toNat ∧ Progress fs drive ino inode source offset.toNat moved after final count := by
  induction turns generalizing fs inode moved with
  | zero => omega
  | succ turns ih =>
    have own := draft.own allocated
    by_cases all : size.toNat ≤ moved
    · refine ⟨fs, inode, moved, ?_, progress, ⟨.done own source _ _, draft⟩⟩
      rw [writeLoop, if_pos all]
    by_cases bound : (offset.toNat + moved) / 512 < directBlocks
    · have limit : (offset.toNat + moved) / 512 < 12 := bound
      rcases @writeLoop_turn fs drive offset size draft.toMounted inode source moved turns (by omega) small bound with
        full | ⟨mid, new, content, transfers, claimed, copied, next⟩
      · exact ⟨fs, inode, moved, full, progress, ⟨.done own source _ _, draft⟩⟩
      · obtain ⟨moves, within, block, boundary⟩ :=
          @chunk_spec (offset.toNat + moved) (size.toNat - moved) (by omega)
        have target := claimed.target_taken own bound
        have nextDraft := ((claimed.draft draft).blockStored target.1 content).retime transfers
        have nextAllocated : mid.allocated ino := by
          rw [Diskfs.allocated, claimed.inodeBitmap]
          exact allocated
        obtain ⟨after, final, count, result, upper, rest⟩ := ih nextDraft nextAllocated
          (by omega : moved + chunk (offset.toNat + moved) (size.toNat - moved) ≤ size.toNat) (by omega) (by omega)
          (by omega)
        refine ⟨after, final, count, next.trans result, upper, ?_⟩
        exact ⟨.turn own claimed bound moves block (by omega) copied rest.toChunks, rest.draft⟩
    · refine ⟨fs, inode, moved, ?_, progress, ⟨.done own source _ _, draft⟩⟩
      rw [writeLoop, position_eq small, if_neg all, if_pos (by omega)]

end Loop

end MexOS.Fs.Diskfs
