import MexOS.Fs.Fresh
import MexOS.Fs.InodeBitmap
import MexOS.Machine.Pool

/-! Runs of the four allocation functions on a formatted drive. Each bitmap is a
pool of numbers, and its counter says how many are left. -/

namespace MexOS.Fs

open MexOS.Machine

/-- A call, and what an allocation returned. -/
inductive AllocEvent
  | allocBlock (ret : Int)
  | freeBlock (block : Word)
  | allocInode (ret : Int)
  | freeInode (ino : Word)

namespace AllocEvent

/-- What an allocation shows of its pool. -/
def answered (ret : Int) : PoolEvent := if ret < 0 then .refused else .took ret.toNat

def ofBlocks : AllocEvent → Option PoolEvent
  | allocBlock ret => some (answered ret)
  | freeBlock block => some (.gave block.toNat)
  | _ => none

def ofInodes : AllocEvent → Option PoolEvent
  | allocInode ret => some (answered ret)
  | freeInode ino => some (.gave ino.toNat)
  | _ => none

theorem answered_natCast (number : Nat) : answered number = .took number := by
  rw [answered, if_neg (by omega), Int.toNat_natCast]

theorem answered_ne_gave (ret : Int) (number : Nat) : answered ret ≠ .gave number := by
  unfold answered
  split <;> intro same <;> cases same

theorem ofBlocks_gave {event : AllocEvent} {number : Nat} (gave : event.ofBlocks = some (.gave number)) :
    ∃ block : Word, block.toNat = number ∧ event = .freeBlock block := by
  cases event with
  | allocBlock ret => exact absurd (Option.some.inj gave) (answered_ne_gave ret number)
  | freeBlock block => exact ⟨block, PoolEvent.gave.inj (Option.some.inj gave), rfl⟩
  | allocInode _ => cases gave
  | freeInode _ => cases gave

theorem ofInodes_gave {event : AllocEvent} {number : Nat} (gave : event.ofInodes = some (.gave number)) :
    ∃ ino : Word, ino.toNat = number ∧ event = .freeInode ino := by
  cases event with
  | allocBlock _ => cases gave
  | freeBlock _ => cases gave
  | allocInode ret => exact absurd (Option.some.inj gave) (answered_ne_gave ret number)
  | freeInode ino => exact ⟨ino, PoolEvent.gave.inj (Option.some.inj gave), rfl⟩

end AllocEvent

namespace Diskfs

/-- One call; only what is allocated is given back. -/
inductive AllocStep : Diskfs → AllocEvent → Diskfs → Prop
  | allocBlock (call : fs.allocBlock = some (ret, after)) : AllocStep fs (.allocBlock ret) after
  | freeBlock (held : fs.taken block.toNat) (call : fs.freeBlock block = some after) : AllocStep fs (.freeBlock block) after
  | allocInode (call : fs.allocInode = some (ret, after)) : AllocStep fs (.allocInode ret) after
  | freeInode (held : fs.allocated ino.toNat) (call : fs.freeInode ino = some after) : AllocStep fs (.freeInode ino) after

variable {fs after : Diskfs} {drive : Byte} {event : AllocEvent}

/-- The totals are those of `diskfs_format`, and the counters those of the
bitmaps. -/
structure Tallied (fs : Diskfs) : Prop where
  totalBlocks : fs.superblock.totalBlocks = 65536
  totalInodes : fs.superblock.totalInodes = 512
  freeBlocks : fs.superblock.freeBlocks.toNat + fs.blockBitmap.population maxBlocks = maxBlocks
  freeInodes : fs.superblock.freeInodes.toNat + fs.inodeBitmap.population maxInodes = maxInodes

section Counter

variable {counter : Word} {bitmap : Bitmap 8} {bit total : Nat}

theorem counter_taken (inside : bit < total) (free : bitmap.test bit = false)
    (count : counter.toNat + bitmap.population total = total) :
    (counter - 1).toNat + (bitmap.set bit).population total = total := by
  have one : (1 : Word).toNat = 1 := rfl
  have more := Bitmap.population_set (by decide) inside free
  have bound := Bitmap.population_le (bitmap.set bit) total
  rw [BitVec.toNat_sub_of_le (by rw [BitVec.le_def]; omega)]
  omega

theorem counter_freed (small : total < 2 ^ 32) (inside : bit < total) (held : bitmap.test bit = true)
    (count : counter.toNat + bitmap.population total = total) :
    (counter + 1).toNat + (bitmap.clear bit).population total = total := by
  have one : (1 : Word).toNat = 1 := rfl
  have fewer := Bitmap.population_clear (by decide) inside held
  rw [BitVec.toNat_add_of_lt (by omega)]
  omega

end Counter

section Calls

theorem Tallied.blockTaken (tallied : fs.Tallied) {block : Nat} (small : block < maxBlocks)
    (free : fs.blockBitmap.test block = false) : (fs.blockTaken block).Tallied := by
  have totals := fs.superblock.setFreeBlocks_totals (fs.superblock.freeBlocks - 1)
  have counters := fs.superblock.setFreeBlocks_counters (fs.superblock.freeBlocks - 1)
  refine ⟨totals.1.trans tallied.totalBlocks, totals.2.trans tallied.totalInodes, ?_, ?_⟩
  · change (fs.superblock.setFreeBlocks (fs.superblock.freeBlocks - 1)).freeBlocks.toNat + _ = _
    rw [counters.1]
    exact counter_taken small free tallied.freeBlocks
  · exact counters.2 ▸ tallied.freeInodes

theorem Tallied.blockFreed (tallied : fs.Tallied) {block : Nat} (held : fs.taken block) :
    (fs.blockFreed block).Tallied := by
  have totals := fs.superblock.setFreeBlocks_totals (fs.superblock.freeBlocks + 1)
  have counters := fs.superblock.setFreeBlocks_counters (fs.superblock.freeBlocks + 1)
  refine ⟨totals.1.trans tallied.totalBlocks, totals.2.trans tallied.totalInodes, ?_, ?_⟩
  · change (fs.superblock.setFreeBlocks (fs.superblock.freeBlocks + 1)).freeBlocks.toNat + _ = _
    rw [counters.1]
    exact counter_freed (by decide) held.1 held.2 tallied.freeBlocks
  · exact counters.2 ▸ tallied.freeInodes

theorem Tallied.inodeTaken (tallied : fs.Tallied) {ino : Nat} (valid : ino < maxInodes)
    (free : fs.inodeBitmap.test ino = false) : (fs.inodeTaken ino).Tallied := by
  have totals := fs.superblock.setFreeInodes_totals (fs.superblock.freeInodes - 1)
  have counters := fs.superblock.setFreeInodes_counters (fs.superblock.freeInodes - 1)
  refine ⟨totals.1.trans tallied.totalBlocks, totals.2.trans tallied.totalInodes, ?_, ?_⟩
  · exact counters.2 ▸ tallied.freeBlocks
  · change (fs.superblock.setFreeInodes (fs.superblock.freeInodes - 1)).freeInodes.toNat + _ = _
    rw [counters.1]
    exact counter_taken valid free tallied.freeInodes

theorem Tallied.inodeFreed (tallied : fs.Tallied) {ino : Nat} (held : fs.allocated ino) :
    (fs.inodeFreed ino).Tallied := by
  have totals := fs.superblock.setFreeInodes_totals (fs.superblock.freeInodes + 1)
  have counters := fs.superblock.setFreeInodes_counters (fs.superblock.freeInodes + 1)
  refine ⟨totals.1.trans tallied.totalBlocks, totals.2.trans tallied.totalInodes, ?_, ?_⟩
  · exact counters.2 ▸ tallied.freeBlocks
  · change (fs.superblock.setFreeInodes (fs.superblock.freeInodes + 1)).freeInodes.toNat + _ = _
    rw [counters.1]
    exact counter_freed (by decide) held.1 held.2 tallied.freeInodes

/-- What a call does to the state. -/
inductive Allocates (fs : Diskfs) : AllocEvent → Diskfs → Prop
  | noBlock (full : ∀ block < maxBlocks, fs.blockBitmap.test block = true) : Allocates fs (.allocBlock (-1)) fs
  | block {block : Nat} (small : block < maxBlocks) (free : fs.blockBitmap.test block = false)
    (lowest : ∀ earlier < block, fs.blockBitmap.test earlier = true) : Allocates fs (.allocBlock block) (fs.blockTaken block)
  | freeBlock {block : Word} (held : fs.taken block.toNat) : Allocates fs (.freeBlock block) (fs.blockFreed block.toNat)
  | noInode (full : ∀ ino < maxInodes, fs.inodeBitmap.test ino = true) : Allocates fs (.allocInode (-1)) fs
  | inode {ino : Nat} (valid : ino < maxInodes) (free : fs.inodeBitmap.test ino = false)
    (lowest : ∀ earlier < ino, fs.inodeBitmap.test earlier = true) : Allocates fs (.allocInode ino) (fs.inodeTaken ino)
  | freeInode {ino : Word} (held : fs.allocated ino.toNat) : Allocates fs (.freeInode ino) (fs.inodeFreed ino.toNat)

theorem AllocStep.allocates (tallied : fs.Tallied) (step : AllocStep fs event after) : Allocates fs event after := by
  cases step with
  | allocBlock call =>
    rcases allocBlock_spec tallied.totalBlocks with ⟨full, result⟩ | ⟨block, small, free, lowest, result⟩
    · cases call.symm.trans result
      exact .noBlock full
    · cases call.symm.trans result
      exact .block small free lowest
  | freeBlock held call =>
    cases call.symm.trans (freeBlock_eq tallied.totalBlocks held.1)
    exact .freeBlock held
  | allocInode call =>
    rcases allocInode_spec tallied.totalInodes with ⟨full, result⟩ | ⟨ino, valid, free, lowest, result⟩
    · cases call.symm.trans result
      exact .noInode full
    · cases call.symm.trans result
      exact .inode valid free lowest
  | freeInode held call =>
    cases call.symm.trans (freeInode_eq tallied.totalInodes held.1)
    exact .freeInode held

theorem Allocates.tallied (call : Allocates fs event after) (tallied : fs.Tallied) : after.Tallied := by
  cases call with
  | noBlock _ => exact tallied
  | block small free _ => exact tallied.blockTaken small free
  | freeBlock held => exact tallied.blockFreed held
  | noInode _ => exact tallied
  | inode valid free _ => exact tallied.inodeTaken valid free
  | freeInode held => exact tallied.inodeFreed held

theorem Allocates.blocks (call : Allocates fs event after) :
    (event.ofBlocks = none ∧ after.blockBitmap.marked maxBlocks = fs.blockBitmap.marked maxBlocks) ∨
      ∃ seen, event.ofBlocks = some seen ∧
        PoolStep maxBlocks (fs.blockBitmap.marked maxBlocks) seen (after.blockBitmap.marked maxBlocks) := by
  cases call with
  | noBlock full => exact .inr ⟨.refused, rfl, Bitmap.pool_refused full⟩
  | block small free lowest =>
    exact .inr ⟨_, congrArg some (AllocEvent.answered_natCast _), Bitmap.pool_took (by decide) small free lowest⟩
  | freeBlock held => exact .inr ⟨_, rfl, Bitmap.pool_gave (by decide) held.1 held.2⟩
  | noInode _ => exact .inl ⟨rfl, rfl⟩
  | inode _ _ _ => exact .inl ⟨rfl, rfl⟩
  | freeInode _ => exact .inl ⟨rfl, rfl⟩

theorem Allocates.inodes (call : Allocates fs event after) :
    (event.ofInodes = none ∧ after.inodeBitmap.marked maxInodes = fs.inodeBitmap.marked maxInodes) ∨
      ∃ seen, event.ofInodes = some seen ∧
        PoolStep maxInodes (fs.inodeBitmap.marked maxInodes) seen (after.inodeBitmap.marked maxInodes) := by
  cases call with
  | noBlock _ => exact .inl ⟨rfl, rfl⟩
  | block _ _ _ => exact .inl ⟨rfl, rfl⟩
  | freeBlock _ => exact .inl ⟨rfl, rfl⟩
  | noInode full => exact .inr ⟨.refused, rfl, Bitmap.pool_refused full⟩
  | inode valid free lowest =>
    exact .inr ⟨_, congrArg some (AllocEvent.answered_natCast _), Bitmap.pool_took (by decide) valid free lowest⟩
  | freeInode held => exact .inr ⟨_, rfl, Bitmap.pool_gave (by decide) held.1 held.2⟩

end Calls

section Runs

variable {start : Diskfs} {events : List AllocEvent}

/-- Over a run, each bitmap is a pool of its own. -/
theorem alloc_pools (tallied : start.Tallied) (run : Trace AllocStep start events fs) : fs.Tallied ∧
    Trace (PoolStep maxBlocks) (start.blockBitmap.marked maxBlocks) (events.filterMap AllocEvent.ofBlocks)
      (fs.blockBitmap.marked maxBlocks) ∧
    Trace (PoolStep maxInodes) (start.inodeBitmap.marked maxInodes) (events.filterMap AllocEvent.ofInodes)
      (fs.inodeBitmap.marked maxInodes) := by
  have blocks := run.simulates (fun fs => fs.blockBitmap.marked maxBlocks) AllocEvent.ofBlocks Tallied tallied
    fun _ _ _ tallied step => ⟨(step.allocates tallied).tallied tallied, (step.allocates tallied).blocks⟩
  have inodes := run.simulates (fun fs => fs.inodeBitmap.marked maxInodes) AllocEvent.ofInodes Tallied tallied
    fun _ _ _ tallied step => ⟨(step.allocates tallied).tallied tallied, (step.allocates tallied).inodes⟩
  exact ⟨blocks.1, blocks.2, inodes.2⟩

/-- A number that is handed out again has been given back since. -/
def NeverTwice (events : List AllocEvent) : Prop :=
  (∀ (number : Nat) front middle back,
    events = front ++ [.allocBlock number] ++ middle ++ [.allocBlock number] ++ back →
      ∃ block : Word, block.toNat = number ∧ .freeBlock block ∈ middle) ∧
  ∀ (number : Nat) front middle back,
    events = front ++ [.allocInode number] ++ middle ++ [.allocInode number] ++ back →
      ∃ ino : Word, ino.toNat = number ∧ .freeInode ino ∈ middle

theorem alloc_neverTwice (tallied : start.Tallied) (run : Trace AllocStep start events fs) : NeverTwice events := by
  obtain ⟨_, blocks, inodes⟩ := alloc_pools tallied run
  constructor
  · intro number front middle back shape
    rw [shape] at blocks
    simp only [List.filterMap_append, List.filterMap_cons, List.filterMap_nil, AllocEvent.ofBlocks,
      AllocEvent.answered_natCast] at blocks
    obtain ⟨event, member, gave⟩ := List.mem_filterMap.mp (pool_took_twice blocks)
    obtain ⟨block, same, rfl⟩ := AllocEvent.ofBlocks_gave gave
    exact ⟨block, same, member⟩
  · intro number front middle back shape
    rw [shape] at inodes
    simp only [List.filterMap_append, List.filterMap_cons, List.filterMap_nil, AllocEvent.ofInodes,
      AllocEvent.answered_natCast] at inodes
    obtain ⟨event, member, gave⟩ := List.mem_filterMap.mp (pool_took_twice inodes)
    obtain ⟨ino, same, rfl⟩ := AllocEvent.ofInodes_gave gave
    exact ⟨ino, same, member⟩

/-- What an allocation from one of the bitmaps does: it takes the lowest number
below `total` whose bit is clear, and sets only that bit. -/
structure FirstFit (bitmap other : Diskfs → Bitmap 8) (total : Nat) (fs : Diskfs) (ret : Int) (after : Diskfs) : Prop where
  full : ret = -1 ↔ ∀ number < total, (bitmap fs).test number = true
  refused : ret = -1 → after = fs
  found : ret ≠ -1 → ∃ number < total, ret = (number : Int) ∧ (bitmap fs).test number = false ∧
    (∀ earlier < number, (bitmap fs).test earlier = true) ∧
    ∀ bit, (bitmap after).test bit = (decide (number = bit) || (bitmap fs).test bit)
  other : other after = other fs

section FirstFit

variable {bitmap other : Diskfs → Bitmap 8} {total number : Nat}

theorem FirstFit.of_full (full : ∀ number < total, (bitmap fs).test number = true) :
    FirstFit bitmap other total fs (-1) fs :=
  ⟨iff_of_true rfl full, fun _ => rfl, fun found => absurd rfl found, rfl⟩

theorem FirstFit.of_free (inside : number < total) (free : (bitmap fs).test number = false)
    (lowest : ∀ earlier < number, (bitmap fs).test earlier = true) (taken : bitmap after = (bitmap fs).set number)
    (same : other after = other fs) : FirstFit bitmap other total fs number after := by
  have found : (number : Int) ≠ -1 := by omega
  refine ⟨⟨fun missing => absurd missing found, fun full => ?_⟩, fun missing => absurd missing found, fun _ => ?_, same⟩
  · rw [full number inside] at free
    cases free
  · refine ⟨number, inside, rfl, free, lowest, fun bit => ?_⟩
    rw [taken, Bitmap.test_set _ (by decide)]

theorem allocBlock_firstFit (tallied : fs.Tallied) : ∃ ret after, fs.allocBlock = some (ret, after) ∧
    FirstFit blockBitmap inodeBitmap fs.superblock.totalBlocks.toNat fs ret after := by
  rw [tallied.totalBlocks]
  rcases allocBlock_spec tallied.totalBlocks with ⟨full, result⟩ | ⟨block, small, free, lowest, result⟩
  · exact ⟨_, _, result, .of_full full⟩
  · exact ⟨_, _, result, .of_free small free lowest rfl rfl⟩

theorem allocInode_firstFit (tallied : fs.Tallied) : ∃ ret after, fs.allocInode = some (ret, after) ∧
    FirstFit inodeBitmap blockBitmap fs.superblock.totalInodes.toNat fs ret after := by
  rw [tallied.totalInodes]
  rcases allocInode_spec tallied.totalInodes with ⟨full, result⟩ | ⟨ino, valid, free, lowest, result⟩
  · exact ⟨_, _, result, .of_full full⟩
  · exact ⟨_, _, result, .of_free valid free lowest rfl rfl⟩

end FirstFit

theorem writeBitmaps_sameMaps (fs : Diskfs) (drive : Byte) : SameMaps fs (fs.writeBitmaps drive).2 := by
  unfold writeBitmaps
  dsimp only
  split <;> exact ⟨rfl, rfl, rfl⟩

theorem format_sameMaps {now : Word} {code : Int} (existing : fs.ata.driveExists drive = true)
    (call : fs.format drive now = some (code, after)) : SameMaps fs.blank after := by
  have counted : SameMaps fs.blank (fs.blank.writeSuperblock drive).2 := ⟨rfl, rfl, rfl⟩
  have maps := counted.trans (writeBitmaps_sameMaps _ drive)
  rw [format, if_neg (by simp [existing])] at call
  dsimp only at call
  split at call
  · cases call
    exact ⟨rfl, rfl, rfl⟩
  split at call
  · cases call
    exact maps
  obtain ⟨⟨ret, written⟩, root, call⟩ := Option.bind_eq_some_iff.mp call
  have kept : SameMaps fs.blank written := maps.trans (writeInode_sameMaps root)
  dsimp only at call
  split at call <;> cases call <;> exact kept

theorem population_zero (count : Nat) : Bitmap.population Bytes.zero count = 0 := by
  unfold Bitmap.population
  rw [Finset.card_eq_zero, Finset.filter_eq_empty_iff]
  intro bit _
  simp [Bitmap.test, Bytes.zero]

theorem blank_tallied (fs : Diskfs) : fs.blank.Tallied := by
  refine ⟨fresh_totalBlocks, fresh_totalInodes, ?_, ?_⟩
  · change Superblock.fresh.freeBlocks.toNat + Bitmap.population Bytes.zero maxBlocks = maxBlocks
    rw [population_zero]
    decide
  · change Superblock.fresh.freeInodes.toNat + (Bitmap.set Bytes.zero 0).population maxInodes = maxInodes
    rw [Bitmap.population_set (by decide) (by decide) (by decide), population_zero]
    decide

theorem SameMaps.tallied (same : SameMaps fs after) (tallied : fs.Tallied) : after.Tallied := by
  obtain ⟨inodeBitmap, blockBitmap, superblock⟩ := same
  constructor
  · rw [superblock, tallied.totalBlocks]
  · rw [superblock, tallied.totalInodes]
  · rw [superblock, blockBitmap, tallied.freeBlocks]
  · rw [superblock, inodeBitmap, tallied.freeInodes]

/-- From `diskfs_format` on, in any order of calls that give back only what is
allocated, no number is handed out twice and the counters are right. -/
theorem diskfs_allocators_run {before : Diskfs} {now : Word} {code : Int} (existing : before.ata.driveExists drive = true)
    (formatted : before.format drive now = some (code, start)) (run : Trace AllocStep start events fs) :
    (∃ ret after, fs.allocBlock = some (ret, after) ∧
      FirstFit blockBitmap inodeBitmap fs.superblock.totalBlocks.toNat fs ret after) ∧
    (∃ ret after, fs.allocInode = some (ret, after) ∧
      FirstFit inodeBitmap blockBitmap fs.superblock.totalInodes.toNat fs ret after) ∧
    (∀ block : Word, fs.taken block.toNat → (fs.freeBlock block).isSome) ∧
    (∀ ino : Word, fs.allocated ino.toNat → (fs.freeInode ino).isSome) ∧
    fs.Tallied ∧ NeverTwice events := by
  have initial : start.Tallied := (format_sameMaps existing formatted).tallied (blank_tallied before)
  have tallied := (alloc_pools initial run).1
  refine ⟨allocBlock_firstFit tallied, allocInode_firstFit tallied, ?_, ?_, tallied, alloc_neverTwice initial run⟩
  · intro block held
    rw [freeBlock_eq tallied.totalBlocks held.1]
    rfl
  · intro ino held
    rw [freeInode_eq tallied.totalInodes held.1]
    rfl

theorem allocBlock_zero (tallied : fs.Tallied) (free : fs.blockBitmap.test 0 = false) :
    fs.allocBlock = some (0, fs.blockTaken 0) := by
  rcases allocBlock_spec tallied.totalBlocks with ⟨full, _⟩ | ⟨block, _, _, lowest, result⟩
  · cases free.symm.trans (full 0 (by decide))
  · cases block with
    | zero => exact result
    | succ last => cases free.symm.trans (lowest 0 (by omega))

/-- Block 0 is handed out, given back and handed out again. -/
theorem diskfs_allocators_run_again : ∃ start fs : Diskfs, (uniform 0).format 0 0 = some (0, start) ∧
    Trace AllocStep start [.allocBlock 0, .freeBlock 0, .allocBlock 0] fs ∧ fs.Tallied := by
  have formatted := @format_eq (uniform 0) 0 (uniform_working 0 0 (by decide)) 0
  have tallied := (format_sameMaps rfl formatted).tallied (blank_tallied _)
  have taken := @Tallied.blockTaken _ tallied 0 (by decide) rfl
  have freed := @Tallied.blockFreed _ taken 0 ⟨by decide, rfl⟩
  have first := Trace.nil.snoc (AllocStep.allocBlock (allocBlock_zero tallied rfl))
  have second := first.snoc (AllocStep.freeBlock ⟨by decide, rfl⟩ (@freeBlock_eq _ taken.totalBlocks 0 (by decide)))
  have third := second.snoc (AllocStep.allocBlock (allocBlock_zero freed rfl))
  exact ⟨_, _, formatted, third, (diskfs_allocators_run rfl formatted third).2.2.2.2.1⟩

end Runs

end Diskfs

end MexOS.Fs
