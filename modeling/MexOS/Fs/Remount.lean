import MexOS.Fs.FailedMount
import MexOS.Fs.TwinEntries

/-! Unmounting and mounting again in the middle of a run of calls on a freshly
formatted drive. -/

namespace MexOS.Fs

open MexOS.Machine

/-- The 17 words of a record: type, size, block pointers, times and parent. -/
def Inode.fields (inode : Inode) : List Word := (List.range 17).map fun index => inode.word (4 * index)

namespace Diskfs

/-- The calls on a mounted drive. -/
inductive Request
  | change (call : Call)
  | read (ino : Word) (buffer : Bytes) (offset size : Word)
  | stat (ino : Word)
  | lookup (junk : Nat → Dirent) (dirIno : Word) (name : CString)

/-- What a caller sees of them. -/
inductive Reply
  | code (result : Int)
  | data (result : Int) (buffer : Bytes)
  | inode (fields : Except Int (List Word))

namespace Request

def run : Request → Diskfs → Option (Reply × Diskfs)
  | change call, fs => (call.run fs).map fun result => (.code result.1, result.2)
  | read ino buffer offset size, fs =>
    (fs.read ino buffer offset size).map fun result => (.data result.1 result.2.1, result.2.2)
  | stat ino, fs => (fs.stat ino).map fun result => (.inode (result.1.map Inode.fields), result.2)
  | lookup junk dirIno name, fs => (fs.lookup junk dirIno name).map fun result => (.code result.1, result.2)

/-- The inode records that the call writes leave every cached copy in step, and
no pointer that it follows leads out of the data. -/
def Fits (drive : Byte) : Request → Diskfs → Prop
  | change (.write ino _ _ _ _), fs =>
    ino.toNat < maxInodes → fs.InStep drive ino ∧ LeadsBehind (fs.onDisk drive ino.toNat) 161
  | change (.create junk parentIno name type created _), fs => fs.CreateInStep drive junk parentIno name type created
  | change (.delete junk _ parentIno name _), fs => fs.DeleteInStep drive junk parentIno name
  | read ino _ _ _, fs => ino.toNat < maxInodes → LeadsBehind (fs.onDisk drive ino.toNat) 33
  | stat _, _ => True
  | lookup _ dirIno _, fs => dirIno.toNat < maxInodes → (fs.onDisk drive dirIno.toNat).type = typeDir →
    LeadsBehind (fs.onDisk drive dirIno.toNat) 33

/-- One call that fits and returns. -/
def FitStep (drive : Byte) (fs after : Diskfs) : Prop :=
  ∃ request reply, Fits drive request fs ∧ request.run fs = some (reply, after)

end Request

section Calls

variable {fs other after : Diskfs} {drive : Byte} {ino : Word}

theorem Inode.fields_same {inode later : Inode} (same : Bytes.Same inode later 0 128) : later.fields = inode.fields := by
  apply List.map_congr_left
  intro index member
  have bound := List.mem_range.mp member
  exact same.word (Nat.zero_le _) (by omega)

theorem Twins.stat (twins : Twins drive (fun _ => False) fs other) (ino : Word) :
    Lockstep (Twins drive fun _ => False) ((Request.stat ino).run fs) ((Request.stat ino).run other) := by
  rw [Request.run, Request.run, Diskfs.stat, Diskfs.stat, if_neg twins.left.drive_ne, if_neg twins.right.drive_ne,
    twins.left.mounted, twins.right.mounted]
  rcases rel_cases (@Twins.readInode _ _ _ _ ino twins fun impossible => impossible) with
    ⟨read, otherRead⟩ | ⟨⟨_, s⟩, ⟨_, t⟩, read, otherRead, states, ⟨rfl, rfl⟩ | ⟨inode, later, rfl, rfl, same⟩⟩
  · rw [read, otherRead]
    exact .none
  · rw [read, otherRead]
    exact .answered _ states
  · rw [read, otherRead]
    refine .some ⟨?_, states⟩
    simp only [Except.map, Inode.fields_same same]

/-- Twins answer every call that fits alike. -/
theorem Twins.run (request : Request) (fs other : Diskfs) (twins : Twins drive (fun _ => False) fs other)
    (left : request.Fits drive fs) (right : request.Fits drive other) :
    Lockstep (Twins drive fun _ => False) (request.run fs) (request.run other) := by
  cases request with
  | change call =>
    cases call with
    | write ino source offset size now =>
      refine Lockstep.map Reply.code ?_
      by_cases beyond : maxInodes ≤ ino.toNat
      · have missing {state : Diskfs} (mounted : Mounted state drive) :
            state.write ino source offset size now = some (-1, state) := by
          rw [Diskfs.write, if_neg mounted.drive_ne, Diskfs.readInode, if_pos beyond]
          rfl
        rw [Call.run, Call.run, missing twins.left.toMounted, missing twins.right.toMounted]
        exact .answered _ twins
      · have valid : ino.toNat < maxInodes := by omega
        exact twins.write_inStep valid (left valid).1 (right valid).1 (left valid).2 source offset size now
    | create junk parentIno name type created written =>
      exact Lockstep.map Reply.code (twins.create left right written)
    | delete junk scrap parentIno name now => exact Lockstep.map Reply.code (twins.delete left right scrap now)
  | read ino buffer offset size =>
    rcases rel_cases (twins.read (fun impossible => impossible) left buffer offset size) with
      ⟨read, otherRead⟩ | ⟨⟨_, _, s⟩, ⟨_, _, t⟩, read, otherRead, rfl, rfl, states⟩
    · rw [Request.run, Request.run, read, otherRead]
      exact .none
    · rw [Request.run, Request.run, read, otherRead]
      exact .answered _ states
  | stat ino => exact twins.stat ino
  | lookup junk dirIno name =>
    exact Lockstep.map Reply.code (twins.lookup (fun impossible => impossible) left junk name)

theorem Durable.twins (durable : Durable fs drive fun _ => False) : Twins drive (fun _ => False) fs fs :=
  ⟨durable, durable, rfl, rfl, rfl, fun _ _ => rfl⟩

/-- One call that fits keeps the copies in step. -/
theorem step_durable (durable : Durable fs drive fun _ => False) (step : Request.FitStep drive fs after) :
    Durable after drive fun _ => False := by
  obtain ⟨request, reply, fits, run⟩ := step
  have both := Twins.run request fs fs durable.twins fits fits
  rw [run] at both
  cases both with
  | some states => exact states.2.left

theorem run_durable (durable : Durable fs drive fun _ => False) (run : Reachable (Request.FitStep drive) fs after) :
    Durable after drive fun _ => False :=
  run.invariant durable fun _ _ => step_durable

end Calls

section Remount

variable {fs : Diskfs} {drive : Byte}

/-- `diskfs_unmount` stores what is in memory and `diskfs_mount` reads it back. -/
theorem Durable.remount (durable : Durable fs drive fun _ => False) :
    ∃ again, fs.unmount.2.mount drive = (0, again) ∧ Twins drive (fun _ => False) fs again := by
  have mounted := durable.toMounted
  have working : fs.ata.Working fs.mountedDrive := mounted.mounted ▸ mounted.working
  obtain ⟨ata, synced, stillWorking, table⟩ := sync_spec mounted
  have stored : ata = fs.metadataStored drive := by
    have same := sync_eq working
    rw [synced, mounted.mounted] at same
    exact same
  have unmounted : fs.unmount.2 = { fs with ata, mountedDrive := 0xFF } := by
    rw [unmount, if_neg mounted.drive_ne, synced]
  obtain ⟨superblock, inodeBitmap, blockBitmap⟩ := metadataStored_holds fs drive
  rw [← stored] at superblock inodeBitmap blockBitmap
  have held : Diskfs.IntakeHeld { fs with ata, mountedDrive := 0xFF } drive :=
    .of_whole superblock inodeBitmap blockBitmap
  have magic : Superblock.magic (ata.sectors drive 0) = diskfsMagic := by
    have first : ata.sectors drive 0 = fs.superblock := by
      funext place
      rw [stored]
      exact metadataStored_superblock
    rw [first, durable.magic]
  have mountable : Diskfs.Mountable { fs with ata, mountedDrive := 0xFF } drive :=
    ⟨⟨stillWorking.works _, magic⟩, stillWorking.works _, stillWorking.works _⟩
  rw [unmounted, mount_present stillWorking.driveExists, if_pos mountable, held.takenIn]
  refine ⟨_, rfl, durable, ⟨⟨?_, rfl, durable.totalInodes, durable.totalBlocks, durable.slots, ?_⟩, durable.magic, ?_, ?_⟩,
    rfl, rfl, rfl, table⟩
  · exact ⟨stillWorking.driveExists, stillWorking.works⟩
  · intro i j _ _ valid
    cases valid
  · intro i _ valid
    cases valid
  · intro i _ valid
    cases valid

/-- The state after `diskfs_format` and `diskfs_mount`. -/
theorem fresh_durable (working : fs.ata.Working drive) (now : Word) :
    ∃ ready, (fs.formatted drive now).mount drive = (0, ready) ∧ Durable ready drive fun _ => False := by
  obtain ⟨ready, mount, consistent⟩ := fresh_consistent working now
  obtain ⟨transfers, result⟩ := mount_eq working now
  refine ⟨ready, mount, consistent.toMounted, ?_, ?_, ?_⟩
  all_goals rw [result] at mount
  all_goals rw [← (Prod.mk.inj mount).2]
  · exact fresh_magic
  · intro i _ valid
    cases valid
  · intro i _ valid
    cases valid

/-- In every state of a run whose calls all fit, unmounting and mounting again
changes no answer to the calls that follow, as long as these fit as well. -/
theorem diskfs_remount_transparent {before formatted ready : Diskfs} {now : Word} (working : before.ata.Working drive)
    (format : before.format drive now = some (0, formatted)) (mount : formatted.mount drive = (0, ready))
    (run : Reachable (Request.FitStep drive) ready fs) :
    ∃ again, fs.unmount.2.mount drive = (0, again) ∧
      ∀ requests, Throughout Request.run (Request.Fits drive) requests fs →
        Throughout Request.run (Request.Fits drive) requests again →
        replies Request.run requests again = replies Request.run requests fs := by
  have start : Durable ready drive fun _ => False := by
    obtain ⟨fresh, again, initial⟩ := fresh_durable working now
    rw [format_eq working now] at format
    rw [← (Prod.mk.inj (Option.some.inj format)).2, again] at mount
    rw [(Prod.mk.inj mount).2] at initial
    exact initial
  obtain ⟨again, remount, twins⟩ := (run_durable start run).remount
  exact ⟨again, remount, fun requests left right => replies_eq Twins.run requests twins left right⟩

end Remount

theorem createLetter_inStep : (Request.change (createLetter 97 (by decide))).Fits 0 zeroDrive := by
  have pointers : ∀ index < directBlocks, (zeroDrive.onDisk 0 0).block index = 0 := by decide
  have root : zeroDrive.inodeBitmap.test 0 = true := by decide
  have first : zeroDrive.inodeBitmap.test 1 = false := by decide
  intro _ _ _
  refine ⟨fun index bound nonzero => absurd (pointers index bound) nonzero, ?_⟩
  intro found after _ _ ino next
  have one : ino = 1 := by
    obtain ⟨_, free, before⟩ := next
    apply BitVec.eq_of_toNat_eq
    rcases Nat.lt_trichotomy ino.toNat 1 with below | same | above
    · have zero : ino.toNat = 0 := by omega
      rw [zero, root] at free
      cases free
    · exact same
    · have taken := before 1 above
      rw [first] at taken
      cases taken
  subst one
  have others : ∀ i < 8, (zeroDrive.inodeLoaded 0 0).inodeCacheValid i = true →
      ((zeroDrive.inodeLoaded 0 0).inodeCacheNum i).toNat ≠ 2 := by decide
  have alone : (zeroDrive.inodeLoaded 0 0).cached 1 = none := by decide
  have tail : ∀ place < 8, (zeroDrive.inodeLoaded 0 0).record 0 0 (128 + place) = (zeroDrive.inodeLoaded 0 0).onDisk 0 1 place := by
    decide
  have table : (zeroDrive.inodeLoaded 0 0).onDisk 0 = zeroDrive.onDisk 0 := (inodeLoaded_cacheOnly zeroDrive 0 0).onDisk 0
  refine ⟨by decide, ?_, ?_, ?_⟩
  · intro i bound valid number
    exact absurd number (others i bound valid)
  · intro _
    refine ⟨⟨by decide, tail⟩, ?_⟩
    rw [table]
    exact fun index bound nonzero => absurd (pointers index bound) nonzero
  · intro _ cached
    exact absurd alone cached

/-- Remounting after the first file was created does not change what
`diskfs_stat` shows of it. -/
theorem diskfs_remount_transparent_first_file :
    ∃ fs again, Reachable (Request.FitStep 0) zeroDrive fs ∧ fs.allocated 1 ∧ fs.unmount.2.mount 0 = (0, again) ∧
      replies Request.run [.stat 1] again = replies Request.run [.stat 1] fs := by
  have check : ((createLetter 97 (by decide)).run zeroDrive).any (fun result => decide (result.2.allocated 1)) = true := by
    decide +kernel
  obtain ⟨⟨result, fs⟩, call, fact⟩ := (Option.any_eq_true _ _).mp check
  have step : Request.FitStep 0 zeroDrive fs := by
    refine ⟨.change (createLetter 97 (by decide)), .code result, createLetter_inStep, ?_⟩
    rw [Request.run, call]
    rfl
  obtain ⟨again, remount, transparent⟩ := @diskfs_remount_transparent fs 0 (uniform 0) _ zeroDrive 0
    (uniform_working 0 0 (by decide)) zeroDrive_ready.1 zeroDrive_ready.2 (.single step)
  exact ⟨fs, again, .single step, of_decide_eq_true fact, remount,
    transparent [.stat 1] ⟨trivial, fun _ _ _ => trivial⟩ ⟨trivial, fun _ _ _ => trivial⟩⟩

/-- The size that `diskfs_stat` shows. -/
def statSize (fs : Diskfs) (ino : Word) : Option Word := do
  match ← fs.stat ino with
  | (.ok inode, _) => return inode.size
  | (.error _, _) => none

/-- Creating the second file writes the cached copy of the root directory, whose
last bytes lie on the size of the first file: the size on the disk is lost, and
the cached copy shows it until the drive is mounted again. -/
theorem diskfs_remount_loses_size :
    ((uniform 0).format 0 0 = some (0, (uniform 0).formatted 0 0) ∧
      ((uniform 0).formatted 0 0).mount 0 = (0, zeroDrive)) ∧
    ∃ fs again, Reachable Step zeroDrive fs ∧ fs.unmount.2.mount 0 = (0, again) ∧ fs.statSize 1 = some 1 ∧
      again.statSize 1 = some 0 := by
  have check : ((createLetter 97 (by decide)).run zeroDrive).any (fun first =>
      ((Call.write 1 (fun _ => 65) 0 1 0).run first.2).any fun written =>
      ((createLetter 98 (by decide)).run written.2).any fun second =>
      decide ((second.2.unmount.2.mount 0).1 = 0 ∧ second.2.statSize 1 = some 1 ∧
        (second.2.unmount.2.mount 0).2.statSize 1 = some 0)) = true := by
    decide +kernel
  obtain ⟨⟨_, first⟩, createFirst, check⟩ := (Option.any_eq_true _ _).mp check
  obtain ⟨⟨_, written⟩, write, check⟩ := (Option.any_eq_true _ _).mp check
  obtain ⟨⟨_, second⟩, createSecond, check⟩ := (Option.any_eq_true _ _).mp check
  obtain ⟨remounted, cached, stored⟩ := of_decide_eq_true check
  have run : Reachable Step zeroDrive second :=
    ((Relation.ReflTransGen.single ⟨_, _, createFirst⟩).tail ⟨_, _, write⟩).tail ⟨_, _, createSecond⟩
  exact ⟨zeroDrive_ready, second, _, run, Prod.ext remounted rfl, cached, stored⟩

end Diskfs

end MexOS.Fs
