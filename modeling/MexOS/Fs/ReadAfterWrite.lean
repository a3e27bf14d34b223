import MexOS.Fs.Fresh
import MexOS.Machine.Transition

/-! Reading back what was written, over all runs of `diskfs_create`,
`diskfs_write` and `diskfs_delete` on a freshly formatted drive. -/

namespace MexOS.Fs.Diskfs

open MexOS.Machine

inductive Call
  | write (ino : Word) (source : Bytes) (offset size now : Word)
  | create (junk : Nat → Dirent) (parentIno : Word) (name : CString) (type created written : Word)
  | delete (junk scrap : Nat → Dirent) (parentIno : Word) (name : CString) (now : Word)

namespace Call

def run : Call → Diskfs → Option (Int × Diskfs)
  | write ino source offset size now, fs => fs.write ino source offset size now
  | create junk parentIno name type created written, fs => fs.create junk parentIno name type created written
  | delete junk scrap parentIno name now, fs => fs.delete junk scrap parentIno name now

/-- The call is answered without effect, or it touches allocated inodes alone
and every inode record it writes leaves the size behind it as it is. -/
def Fits (drive : Byte) : Call → Diskfs → Prop
  | write ino _ _ _ _, fs => maxInodes ≤ ino.toNat ∨ fs.allocated ino.toNat ∧ fs.Synced drive ino
  | create junk parentIno name _ _ _, fs => fs.CreateFits drive junk parentIno name
  | delete junk _ parentIno name _, fs => fs.DeleteFits drive junk parentIno name

end Call

/-- One call that returns, whatever it does. -/
def Step (fs after : Diskfs) : Prop := ∃ call result, Call.run call fs = some (result, after)

/-- One call that fits. -/
def FitStep (drive : Byte) (fs after : Diskfs) : Prop :=
  ∃ call result, Call.Fits drive call fs ∧ call.run fs = some (result, after)

variable {fs after : Diskfs} {drive : Byte}

theorem step_consistent (consistent : Consistent fs drive) (step : FitStep drive fs after) : Consistent after drive := by
  obtain ⟨call, result, fits, run⟩ := step
  cases call with
  | write ino source offset size now =>
    rcases fits with beyond | ⟨allocated, synced⟩
    · rw [Call.run, write, if_neg consistent.drive_ne, readInode, if_pos beyond] at run
      simp only [Option.bind_eq_bind, Option.bind_some] at run
      rw [← (Prod.mk.inj (Option.some.inj run)).2]
      exact consistent
    · obtain ⟨count, last, call, _, written⟩ := write_spec consistent allocated synced source offset size now
      rw [Call.run, call] at run
      rw [← (Prod.mk.inj (Option.some.inj run)).2]
      exact written.consistent
  | create junk parentIno name type created written => exact create_consistent consistent fits run
  | delete junk scrap parentIno name now => exact delete_consistent consistent fits run

theorem run_consistent (consistent : Consistent fs drive) (run : Reachable (FitStep drive) fs after) :
    Consistent after drive :=
  run.invariant consistent fun _ _ => step_consistent

/-- In every state of a run whose calls all fit, a write to an allocated inode
that fits too and is not given block 0 can be read back, and all other
allocated inodes read as before. -/
theorem diskfs_read_after_write {before ready formatted : Diskfs} {now : Word} (working : before.ata.Working drive)
    (format : before.format drive now = some (0, formatted)) (mount : formatted.mount drive = (0, ready))
    (run : Reachable (FitStep drive) ready fs) {ino : Word} (allocated : fs.allocated ino.toNat)
    (synced : fs.Synced drive ino) (source : Bytes) {offset size : Word} (limit : offset.toNat + size.toNat ≤ 6144)
    (grant : fs.blockBitmap.test 0 = true ∨
      ∀ place < size.toNat, (fs.onDisk drive ino.toNat).block ((offset.toNat + place) / 512) ≠ 0) (later : Word) :
    ∃ (count : Nat) (after : Diskfs), fs.write ino source offset size later = some ((count : Int), after) ∧
      count ≤ size.toNat ∧
      (∀ buffer, ∃ result last, after.read ino buffer offset (BitVec.ofNat 32 count) = some ((count : Int), result, last) ∧
        ∀ place < count, result place = source place) ∧
      ∀ other : Word, other ≠ ino → fs.allocated other.toNat → ∀ buffer start length,
        answer (after.read other buffer start length) = answer (fs.read other buffer start length) := by
  have consistent : Consistent fs drive := by
    obtain ⟨fresh, again, initial⟩ := fresh_consistent working now
    rw [format_eq working now] at format
    rw [← (Prod.mk.inj (Option.some.inj format)).2, again] at mount
    rw [(Prod.mk.inj mount).2] at initial
    exact run_consistent initial run
  obtain ⟨count, after, call, upper, written⟩ := write_spec consistent allocated synced source offset size later
  rw [cutSize_of_le (by omega)] at upper
  refine ⟨count, after, call, upper, ?_, ?_⟩
  · intro buffer
    apply written.read_back allocated (by omega)
    intro place below
    apply written.granted place below
    rcases grant with first | pointers
    · exact .inl first
    · exact .inr (pointers place (by omega))
  · intro other differ otherAllocated buffer start length
    have apart : other.toNat ≠ ino.toNat := fun same => differ (BitVec.eq_of_toNat_eq same)
    apply (written.others _ apart otherAllocated).answer consistent written.consistent otherAllocated
    rw [Diskfs.allocated, written.inodeBitmap]
    exact otherAllocated

/-- A drive of zeros after `diskfs_format` and `diskfs_mount`. -/
def zeroDrive : Diskfs := (((uniform 0).formatted 0 0).mount 0).2

/-- A file with a name of one letter in the root directory. -/
def createLetter (letter : Byte) (visible : letter ≠ 0) : Call :=
  .create (fun _ => Bytes.zero) 0 ⟨[letter], by simpa using visible.symm⟩ typeFile 0 0

theorem zeroDrive_ready :
    (uniform 0).format 0 0 = some (0, (uniform 0).formatted 0 0) ∧
      ((uniform 0).formatted 0 0).mount 0 = (0, zeroDrive) :=
  ⟨format_eq (uniform_working 0 0 (by decide)) 0, Prod.ext (by decide) rfl⟩

theorem createLetter_fits : (createLetter 97 (by decide)).Fits 0 zeroDrive := by
  refine .inr (.inr (.inr ⟨by decide, ?_⟩))
  intro found after _ _ ino next
  have root : zeroDrive.inodeBitmap.test 0 = true := by decide
  have first : zeroDrive.inodeBitmap.test 1 = false := by decide
  have second : ¬ zeroDrive.allocated 2 := by decide
  have tail : (zeroDrive.record 0 0).word 132 = 0 := by decide
  have one : ino = 1 := by
    obtain ⟨_, free, before⟩ := next
    rcases Nat.lt_trichotomy ino 1 with below | same | above
    · have zero : ino = 0 := by omega
      rw [zero, root] at free
      cases free
    · exact same
    · have taken := before 1 above
      rw [first] at taken
      cases taken
  subst one
  refine ⟨by decide, fun next => absurd next second, ?_⟩
  rw [if_pos (by decide : (0 : Word).toNat + 1 = 1)]
  exact tail

/-- The first file of a fresh drive takes 1000 bytes and gives them back. -/
theorem diskfs_read_after_write_first_file :
    ∃ fs, Reachable (FitStep 0) zeroDrive fs ∧ ∃ (count : Nat) (after : Diskfs),
      fs.write 1 (fun place => BitVec.ofNat 8 place) 0 1000 5 = some ((count : Int), after) ∧ count ≤ 1000 ∧
      (∀ buffer, ∃ result last, after.read 1 buffer 0 (BitVec.ofNat 32 count) = some ((count : Int), result, last) ∧
        ∀ place < count, result place = BitVec.ofNat 8 place) ∧
      ∀ other : Word, other ≠ 1 → fs.allocated other.toNat → ∀ buffer start length,
        answer (after.read other buffer start length) = answer (fs.read other buffer start length) := by
  have check : ((createLetter 97 (by decide)).run zeroDrive).any (fun result =>
      decide (result.2.allocated 1 ∧ ¬ result.2.allocated 2 ∧ result.2.blockBitmap.test 0 = true)) = true := by
    decide +kernel
  obtain ⟨⟨result, fs⟩, call, facts⟩ := (Option.any_eq_true _ _).mp check
  obtain ⟨allocated, unallocated, first⟩ := of_decide_eq_true facts
  have run : Reachable (FitStep 0) zeroDrive fs := .single ⟨_, result, createLetter_fits, call⟩
  refine ⟨fs, run, ?_⟩
  exact @diskfs_read_after_write fs 0 (uniform 0) zeroDrive _ 0 (uniform_working 0 0 (by decide)) zeroDrive_ready.1
    zeroDrive_ready.2 run 1 allocated (fun next => absurd next unallocated) (fun place => BitVec.ofNat 8 place) 0 1000
    (by decide) (.inl first) 5

/-- Writing no bytes at the end of the greatest file makes the root directory
that long without a block, so the entries of two new files are not stored and
the first block, block 0, goes to the second file: its pointer reads as
unallocated. -/
theorem diskfs_loses_block_zero :
    ((uniform 0).format 0 0 = some (0, (uniform 0).formatted 0 0) ∧
      ((uniform 0).formatted 0 0).mount 0 = (0, zeroDrive)) ∧
    ∃ fs after, Reachable Step zeroDrive fs ∧ fs.allocated 2 ∧ (fs.onDisk 0 2).type = typeFile ∧
      (fs.onDisk 0 2).size = 0 ∧ fs.write 2 (fun _ => 65) 0 1 5 = some (1, after) ∧
      ∃ result last, after.read 2 Bytes.zero 0 1 = some (0, result, last) := by
  have check : ((Call.write 0 Bytes.zero 6144 0 1).run zeroDrive).any (fun padded =>
      ((createLetter 97 (by decide)).run padded.2).any fun first =>
      ((createLetter 98 (by decide)).run first.2).any fun second =>
      decide (second.2.allocated 2 ∧ (second.2.onDisk 0 2).type = typeFile ∧ (second.2.onDisk 0 2).size = 0) &&
      (second.2.write 2 (fun _ => 65) 0 1 5).any fun written =>
      decide (written.1 = 1) && (written.2.read 2 Bytes.zero 0 1).any fun result => decide (result.1 = 0)) = true := by
    decide +kernel
  obtain ⟨⟨_, padded⟩, pad, check⟩ := (Option.any_eq_true _ _).mp check
  obtain ⟨⟨_, first⟩, createFirst, check⟩ := (Option.any_eq_true _ _).mp check
  obtain ⟨⟨_, second⟩, createSecond, check⟩ := (Option.any_eq_true _ _).mp check
  obtain ⟨state, check⟩ := Bool.and_eq_true_iff.mp check
  obtain ⟨allocated, type, size⟩ := of_decide_eq_true state
  obtain ⟨⟨count, after⟩, write, check⟩ := (Option.any_eq_true _ _).mp check
  obtain ⟨returned, check⟩ := Bool.and_eq_true_iff.mp check
  obtain ⟨⟨answered, result, last⟩, read, nothing⟩ := (Option.any_eq_true _ _).mp check
  have one : count = 1 := of_decide_eq_true returned
  have zero : answered = 0 := of_decide_eq_true nothing
  subst one zero
  have run : Reachable Step zeroDrive second :=
    ((Relation.ReflTransGen.single ⟨_, _, pad⟩).tail ⟨_, _, createFirst⟩).tail ⟨_, _, createSecond⟩
  exact ⟨zeroDrive_ready, second, after, run, allocated, type, size, write, result, last, read⟩

end MexOS.Fs.Diskfs
