import MexOS.Fs.FileSystem
import MexOS.Fs.InodeTable
import MexOS.Fs.WorkingDirectory

/-! What the calls of `fs.c` say about a path after `fs_create_file`. -/

namespace MexOS.Fs

open MexOS.Machine

namespace RamFs

/-- The part of a path behind its last slash, as it fits into the buffers. -/
def baseName (path : CString) : List Byte :=
  let buf := path.bytes.take (fsMaxPath - 1)
  let p := if buf.head? = some slash then buf.tail else buf
  match lastSlash p with
  | none => cutName p
  | some (_, namePart) => cutName namePart

section Lookups

variable {fs after : RamFs} {idx parentIdx current : Index} {path : CString} {name : List Byte}

theorem resolvePath_baseName (resolved : fs.resolvePath path = .ok (idx, name)) : name = baseName path := by
  unfold resolvePath at resolved
  split at resolved
  · cases resolved
  · unfold baseName
    dsimp only at resolved ⊢
    generalize (if (path.bytes.take (fsMaxPath - 1)).head? = some slash then (path.bytes.take (fsMaxPath - 1)).tail
      else path.bytes.take (fsMaxPath - 1)) = p at resolved ⊢
    cases last : lastSlash p with
    | none =>
      rw [last] at resolved
      cases resolved
      rfl
    | some parts =>
      rw [last] at resolved
      dsimp only at resolved ⊢
      split at resolved
      · cases resolved
      · cases resolved
        rfl

/-- The nodes in use are found as before, under the same names and parents. -/
structure Retains (fs after : RamFs) : Prop where
  type : ∀ i, (fs.nodes i).used = true → (after.nodes i).type = (fs.nodes i).type
  up : ∀ i, (fs.nodes i).used = true → after.up i = fs.up i
  find : ∀ dirIdx name i, fs.findNodeInDir dirIdx name = some i → after.findNodeInDir dirIdx name = some i
  cwdIdx : after.cwdIdx = fs.cwdIdx

theorem Retains.walk (retains : Retains fs after) (rooted : Rooted fs) (used : (fs.nodes current).used = true)
    {tokens : List (List Byte)} (walked : fs.walk current tokens = .ok idx) : after.walk current tokens = .ok idx := by
  induction tokens generalizing current with
  | nil => exact walked
  | cons token rest ih =>
    by_cases proper : Proper (cutName token)
    · rw [walk_proper proper] at walked ⊢
      split at walked
      · cases walked
      · next next found =>
        have present := (findNodeInDir_some found).1
        split at walked
        · cases walked
        · next dir =>
          rw [retains.find _ _ _ found]
          dsimp only
          rw [retains.type next present, if_neg dir]
          exact ih present walked
    · simp only [RamFs.walk] at walked ⊢
      split at walked
      · next empty =>
        rw [if_pos empty]
        exact ih used walked
      · next nonempty =>
        rw [if_neg nonempty]
        split at walked
        · next single =>
          rw [if_pos single]
          exact ih used walked
        · next single =>
          rw [if_neg single]
          split at walked
          · next double =>
            have above : after.parentDir current = fs.parentDir current := by
              rw [parentDir, parentDir]
              split
              · exact retains.up current used
              · rfl
            have parentUsed : (fs.nodes (fs.parentDir current)).used = true := by
              rw [parentDir]
              split
              · exact (rooted.parents current used).1
              · exact used
            rw [if_pos double, above]
            exact ih parentUsed walked
          · next double => exact absurd ⟨nonempty, single, double⟩ proper

theorem Retains.resolvePath (retains : Retains fs after) (rooted : Rooted fs)
    (resolved : fs.resolvePath path = .ok (idx, name)) : after.resolvePath path = .ok (idx, name) := by
  have start : (fs.nodes (if (path.bytes.take (fsMaxPath - 1)).head? = some slash then 0 else fs.cwdIdx)).used = true := by
    split
    · exact rooted.root.1
    · exact rooted.cwd.1
  unfold RamFs.resolvePath at resolved ⊢
  split at resolved
  · cases resolved
  · next nonempty =>
    rw [if_neg nonempty]
    dsimp only at resolved ⊢
    rw [retains.cwdIdx]
    generalize (if (path.bytes.take (fsMaxPath - 1)).head? = some slash then (path.bytes.take (fsMaxPath - 1)).tail
      else path.bytes.take (fsMaxPath - 1)) = p at resolved ⊢
    cases last : lastSlash p with
    | none =>
      rw [last] at resolved
      exact resolved
    | some parts =>
      rw [last] at resolved
      dsimp only at resolved ⊢
      split at resolved
      · cases resolved
      · next walked =>
        rw [retains.walk rooted start walked]
        exact resolved

theorem retains_setNode {node : FsNode} (free : (fs.nodes idx).used = false)
    (fresh : node.used = true → fs.findNodeInDir node.parentIdx node.name = none) : Retains fs (fs.setNode idx node) := by
  have kept (i : Index) (used : (fs.nodes i).used = true) : (fs.setNode idx node).nodes i = fs.nodes i := by
    refine setNode_other fs node ?_
    rintro rfl
    rw [free] at used
    cases used
  refine ⟨?_, ?_, ?_, rfl⟩
  · intro i used
    rw [kept i used]
  · intro i used
    rw [RamFs.up, RamFs.up, kept i used]
  · intro dirIdx name i found
    rw [← found, findNodeInDir, findNodeInDir]
    congr 1
    funext j
    by_cases here : j = idx
    · subst here
      rw [setNode_self, free, Bool.false_and, Bool.false_and, Bool.eq_false_iff]
      intro matched
      simp only [Bool.and_eq_true, beq_iff_eq] at matched
      have absent := fresh matched.1.1
      rw [matched.1.2, matched.2, found] at absent
      cases absent
    · rw [setNode_other fs node here]

theorem find_setNode {node : FsNode} (used : node.used = true)
    (fresh : fs.findNodeInDir node.parentIdx node.name = none) :
    (fs.setNode idx node).findNodeInDir node.parentIdx node.name = some idx := by
  have up : (fs.setNode idx node).up idx = node.parentIdx := by rw [RamFs.up, setNode_self]
  cases found : (fs.setNode idx node).findNodeInDir node.parentIdx node.name with
  | none =>
    refine absurd ?_ (findNodeInDir_none found ?_ up)
    · rw [setNode_self]
    · rw [setNode_self, used]
  | some i =>
    by_cases here : i = idx
    · rw [here]
    · obtain ⟨present, parent, same⟩ := findNodeInDir_some found
      rw [RamFs.up, setNode_other fs node here] at parent
      rw [setNode_other fs node here] at present same
      exact absurd same (findNodeInDir_none fresh present parent)

/-- Taking the new node away again leaves the old ones as they were. -/
theorem find_setNode_zero (free : (fs.nodes idx).used = false) (fresh : fs.findNodeInDir parentIdx name = none) :
    (fs.setNode idx FsNode.zero).findNodeInDir parentIdx name = none := by
  cases found : (fs.setNode idx FsNode.zero).findNodeInDir parentIdx name with
  | none => rfl
  | some i =>
    obtain ⟨present, parent, same⟩ := findNodeInDir_some found
    have here : i ≠ idx := by
      rintro rfl
      rw [setNode_self] at present
      cases present
    rw [RamFs.up, setNode_other fs _ here] at parent
    rw [setNode_other fs _ here] at present same
    exact absurd same (findNodeInDir_none fresh present parent)

theorem setNode_twice (fs : RamFs) (idx : Index) (first second : FsNode) :
    (fs.setNode idx first).setNode idx second = fs.setNode idx second := by
  rw [setNode, setNode, setNode, Function.update_idem]

end Lookups

section Creating

variable {fs : RamFs} {path : CString} {fill : FsNode → List Byte → Index → FsNode} {idx parentIdx : Index}
  {name : List Byte} {node : FsNode}

theorem Created.path_ne (created : Created fs path fill idx name parentIdx) : path.bytes ≠ [slash] := by
  intro top
  apply created.nonempty
  rw [resolvePath_baseName created.resolved, baseName, top]
  rfl

/-- The path leads to the node that was filled in for it, whatever its data. -/
theorem Created.resolved_again (created : Created fs path fill idx name parentIdx) (rooted : Rooted fs)
    (proper : Proper name) (used : node.used = true) (named : node.name = name) (parent : node.parentIdx = parentIdx) :
    (fs.setNode idx node).resolveFullPath path = .ok idx := by
  subst named parent
  have retains := @retains_setNode fs idx node created.free fun _ => created.fresh
  rw [resolveFullPath_proper created.path_ne (retains.resolvePath rooted created.resolved) proper,
    find_setNode used created.fresh]

theorem Created.again (created : Created fs path fill idx name parentIdx) (rooted : Rooted fs)
    (used : node.used = true) (named : node.name = name) (parent : node.parentIdx = parentIdx) :
    (fs.setNode idx node).createFile path = (FsError.exists.code, fs.setNode idx node) := by
  subst named parent
  have retains := @retains_setNode fs idx node created.free fun _ => created.fresh
  rw [createFile, createNode, retains.resolvePath rooted created.resolved]
  dsimp only
  rw [if_neg created.nonempty, find_setNode used created.fresh]
  rfl

/-- The new node has no children. -/
theorem Created.leaf (created : Created fs path fill idx name parentIdx) (rooted : Rooted fs)
    (parent : node.parentIdx = parentIdx) : (fs.setNode idx node).hasChild idx = false := by
  have apart {i : Index} (isUsed : (fs.nodes i).used = true) : i ≠ idx := by
    rintro rfl
    rw [created.free] at isUsed
    cases isUsed
  rw [Bool.eq_false_iff]
  intro child
  obtain ⟨i, isUsed, up⟩ := hasChild_iff.mp child
  by_cases here : i = idx
  · subst here
    rw [RamFs.up, setNode_self, parent] at up
    exact apart (rooted.resolvePath_dir created.resolved).1 up
  · rw [setNode_other fs node here] at isUsed
    rw [RamFs.up, setNode_other fs node here] at up
    exact apart (rooted.parents i isUsed).1 up

theorem Created.removed (created : Created fs path fill idx name parentIdx) (rooted : Rooted fs) (proper : Proper name)
    (used : node.used = true) (named : node.name = name) (parent : node.parentIdx = parentIdx) :
    (fs.setNode idx node).remove path = (0, fs.setNode idx FsNode.zero) := by
  have inner : idx ≠ 0 := by
    rintro rfl
    have free := created.free
    rw [rooted.root.1] at free
    cases free
  rw [remove, created.resolved_again rooted proper used named parent]
  dsimp only
  rw [if_neg inner, created.leaf rooted parent, if_neg (fun dir => absurd dir.2 (by decide)), setNode_twice]

/-- Without the node the path leads nowhere. -/
theorem Created.unresolved (created : Created fs path fill idx name parentIdx) (rooted : Rooted fs) (proper : Proper name) :
    (fs.setNode idx FsNode.zero).resolveFullPath path = .error .notFound := by
  have retains := @retains_setNode fs idx FsNode.zero created.free fun used => absurd used (by decide)
  rw [resolveFullPath_proper created.path_ne (retains.resolvePath rooted created.resolved) proper,
    find_setNode_zero created.free created.fresh]

/-- A last component `.` or `..` names a directory that was there before. -/
theorem Created.resolved_dotted (created : Created fs path fill idx name parentIdx) (rooted : Rooted fs)
    (dotted : ¬ Proper name) (node : FsNode) (fresh : node.used = true → fs.findNodeInDir node.parentIdx node.name = none) :
    ∃ i, fs.Dir i ∧ (fs.setNode idx node).resolveFullPath path = .ok i := by
  have retains := @retains_setNode fs idx node created.free fresh
  have resolved := retains.resolvePath rooted created.resolved
  have parent := rooted.resolvePath_dir created.resolved
  have nonempty : path.bytes ≠ [] := by
    intro empty
    rw [resolvePath, if_pos empty] at resolved
    cases resolved
  have sameAbove : (fs.setNode idx node).parentDir parentIdx = fs.parentDir parentIdx := by
    rw [parentDir, parentDir]
    split
    · exact retains.up parentIdx parent.1
    · rfl
  rw [resolveFullPath, if_neg nonempty, if_neg created.path_ne, resolved]
  dsimp only
  rw [if_neg created.nonempty]
  by_cases single : name = [dot]
  · exact ⟨parentIdx, parent, if_pos single⟩
  · by_cases double : name = [dot, dot]
    · refine ⟨fs.parentDir parentIdx, parentDir_dir rooted.parents parent, ?_⟩
      rw [if_neg single, if_pos double, sameAbove]
    · exact absurd ⟨created.nonempty, single, double⟩ dotted

theorem Created.resolved_dir (created : Created fs path fill idx name parentIdx) (rooted : Rooted fs)
    (dotted : ¬ Proper name) (node : FsNode) (fresh : node.used = true → fs.findNodeInDir node.parentIdx node.name = none) :
    (fs.setNode idx node).isDir path = true := by
  have retains := @retains_setNode fs idx node created.free fresh
  obtain ⟨i, dir, resolved⟩ := created.resolved_dotted rooted dotted node fresh
  rw [isDir, resolved]
  dsimp only
  rw [retains.type i dir.1, dir.2]
  rfl

end Creating

end RamFs

namespace FileSystem

/-- What is expected of a path for which `fs_create_file` has returned
`FS_ERR_OK`, call by call. -/
def OneNamespace (fs : FileSystem) (path : CString) : Prop :=
  fs.fsExists path = true ∧ fs.isDir path = false ∧
    ∀ (first second third : Ambient) (data buffer : Bytes) (size : Word), size.toNat ≤ fsMaxFileSize →
      ∃ ret written, fs.write path first data size = some (ret, written) ∧
      ∃ result last, written.read path second buffer size = some ((size.toNat : Int), result, last) ∧
        (∀ place < size.toNat, result place = data place) ∧ last.getSize path = size.toNat ∧
      ∃ again, last.createFile path third = some (FsError.exists.code, again) ∧
        (again.remove path).1 = 0 ∧ (again.remove path).2.fsExists path = false

variable {fs after : FileSystem} {path : CString}

section Disk

/-- With the disk the file may be there already, but that is not told. -/
theorem createFile_code {ambient : Ambient} {ret : Int} (enabled : fs.diskEnabled = true)
    (call : fs.createFile path ambient = some (ret, after)) : ret ≠ FsError.exists.code := by
  rw [createFile, if_pos enabled] at call
  obtain ⟨⟨parentPath, basename⟩, _, call⟩ := Option.bind_eq_some_iff.mp call
  obtain ⟨⟨parentIno, disk⟩, _, call⟩ := Option.bind_eq_some_iff.mp call
  dsimp only at call
  split at call
  · cases call
    decide
  · obtain ⟨⟨ino, disk⟩, _, call⟩ := Option.bind_eq_some_iff.mp call
    cases call
    split <;> decide

theorem write_diskEnabled {ambient : Ambient} {data : Bytes} {size : Word} {ret : Int}
    (call : fs.write path ambient data size = some (ret, after)) : after.diskEnabled = fs.diskEnabled := by
  rw [write] at call
  split at call
  · obtain ⟨⟨ino, disk⟩, _, call⟩ := Option.bind_eq_some_iff.mp call
    dsimp only at call
    split at call
    · cases call
      rfl
    · obtain ⟨⟨ret, disk⟩, _, call⟩ := Option.bind_eq_some_iff.mp call
      cases call
      rfl
  · cases call
    rfl

theorem read_diskEnabled {ambient : Ambient} {buffer result : Bytes} {size : Word} {ret : Int}
    (call : fs.read path ambient buffer size = some (ret, result, after)) : after.diskEnabled = fs.diskEnabled := by
  rw [read] at call
  split at call
  · obtain ⟨⟨ino, disk⟩, _, call⟩ := Option.bind_eq_some_iff.mp call
    dsimp only at call
    split at call
    · cases call
      rfl
    · obtain ⟨⟨ret, buffer, disk⟩, _, call⟩ := Option.bind_eq_some_iff.mp call
      cases call
      rfl
  · cases call
    rfl

theorem not_oneNamespace_of_disk (enabled : fs.diskEnabled = true) : ¬ fs.OneNamespace path := by
  rintro ⟨_, _, calls⟩
  obtain ⟨_, written, write, _, last, read, _, _, again, create, _⟩ :=
    calls Ambient.zero Ambient.zero Ambient.zero Bytes.zero Bytes.zero 0 (Nat.zero_le _)
  have still : last.diskEnabled = true := by rw [read_diskEnabled read, write_diskEnabled write, enabled]
  exact createFile_code still create rfl

end Disk

section Memory

variable {idx parentIdx : Index} {name : List Byte}

/-- What the calls on a new path say of the node behind it. -/
theorem oneNamespace_of_created {fill : FsNode → List Byte → Index → FsNode} (enabled : fs.diskEnabled = false)
    (rooted : RamFs.Rooted fs.ram) (created : RamFs.Created fs.ram path fill idx name parentIdx)
    (proper : RamFs.Proper name) {node : FsNode} (used : node.used = true) (named : node.name = name)
    (parent : node.parentIdx = parentIdx) (file : node.type = .file) :
    ({ fs with ram := fs.ram.setNode idx node } : FileSystem).OneNamespace path := by
  have resolved := created.resolved_again rooted proper used named parent
  have type : ((fs.ram.setNode idx node).nodes idx).type = .file := by rw [RamFs.setNode_self, file]
  refine ⟨?_, ?_, ?_⟩
  · rw [fsExists, RamFs.fsExists, resolved]
    rfl
  · rw [isDir, RamFs.isDir, resolved]
    dsimp only
    rw [type]
    rfl
  · intro first second third data buffer size fits
    have cut : min size.toNat fsMaxFileSize = size.toNat := Nat.min_eq_left fits
    have written := RamFs.write_eq resolved type data size.toNat
    rw [cut, RamFs.setNode_twice, RamFs.setNode_self] at written
    generalize filled : ({ node with data := node.data.copy 0 data 0 size.toNat, size := size.toNat } : FsNode) = full at written
    have fullUsed : full.used = true := by rw [← filled, used]
    have fullNamed : full.name = name := by rw [← filled, named]
    have fullParent : full.parentIdx = parentIdx := by rw [← filled, parent]
    have fullFile : full.type = .file := by rw [← filled, file]
    have fullSize : full.size = size.toNat := by rw [← filled]
    have found := created.resolved_again rooted proper fullUsed fullNamed fullParent
    have removed := created.removed rooted proper fullUsed fullNamed fullParent
    refine ⟨size.toNat, { fs with ram := fs.ram.setNode idx full }, ?_, buffer.copy 0 full.data 0 size.toNat,
      { fs with ram := fs.ram.setNode idx full }, ?_, ?_, ?_, { fs with ram := fs.ram.setNode idx full }, ?_, ?_, ?_⟩
    · rw [write, if_neg (by simp [enabled])]
      dsimp only
      rw [written]
    · rw [read, if_neg (by simp [enabled]), RamFs.read]
      simp only [found, RamFs.setNode_self, fullFile, fullSize, ne_eq, not_true_eq_false, ↓reduceIte, Nat.lt_irrefl]
    · intro place inside
      rw [Bytes.copy_inside (Nat.zero_le _) (by omega), Nat.sub_zero, Nat.zero_add, ← filled]
      dsimp only
      rw [Bytes.copy_inside (Nat.zero_le _) (by omega), Nat.sub_zero, Nat.zero_add]
    · rw [getSize, RamFs.getSize]
      simp only [found, RamFs.setNode_self, fullSize]
    · rw [createFile, if_neg (by simp [enabled])]
      dsimp only
      rw [created.again rooted fullUsed fullNamed fullParent]
    · rw [remove]
      dsimp only
      rw [removed]
    · rw [remove, fsExists, RamFs.fsExists]
      dsimp only
      rw [removed, created.unresolved rooted proper]
      rfl

end Memory

/-- The call neither removes the current directory nor overruns `cwd`. -/
def Call.Keeps (fs : FileSystem) : Call → Prop
  | remove path => RamFs.Call.Keeps fs.ram (.remove path)
  | changeDir path => RamFs.Call.Keeps fs.ram (.changeDir path)
  | _ => True

/-- A call that returns, does not remove the current directory and stays inside
`cwd`. -/
def KeepingStep (before after : FileSystem) : Prop := ∃ call : Call, call.Keeps before ∧ call.run before = some after

/-- What a call does to the nodes in memory. -/
theorem Call.run_ram {call : Call} (keeps : call.Keeps fs) (run : call.run fs = some after) :
    after.ram = fs.ram ∨ after.ram = RamFs.init ∨ RamFs.KeepingStep fs.ram after.ram := by
  cases call with
  | init =>
    cases run
    exact .inr (.inl rfl)
  | createFile path ambient =>
    obtain ⟨⟨ret, last⟩, call, rfl⟩ := Option.map_eq_some_iff.mp run
    rw [FileSystem.createFile] at call
    split at call
    · obtain ⟨_, _, call⟩ := Option.bind_eq_some_iff.mp call
      obtain ⟨_, _, call⟩ := Option.bind_eq_some_iff.mp call
      dsimp only at call
      split at call
      · cases call
        exact .inl rfl
      · obtain ⟨_, _, call⟩ := Option.bind_eq_some_iff.mp call
        cases call
        exact .inl rfl
    · cases call
      exact .inr (.inr ⟨.createFile path, trivial, _, rfl⟩)
  | createDir path =>
    cases run
    exact .inr (.inr ⟨.createDir path, trivial, _, rfl⟩)
  | remove path =>
    cases run
    exact .inr (.inr ⟨.remove path, keeps, _, rfl⟩)
  | read path ambient buffer size =>
    obtain ⟨⟨ret, result, last⟩, call, rfl⟩ := Option.map_eq_some_iff.mp run
    rw [FileSystem.read] at call
    split at call
    · obtain ⟨_, _, call⟩ := Option.bind_eq_some_iff.mp call
      dsimp only at call
      split at call
      · cases call
        exact .inl rfl
      · obtain ⟨_, _, call⟩ := Option.bind_eq_some_iff.mp call
        cases call
        exact .inl rfl
    · cases call
      exact .inl rfl
  | write path ambient data size =>
    obtain ⟨⟨ret, last⟩, call, rfl⟩ := Option.map_eq_some_iff.mp run
    rw [FileSystem.write] at call
    split at call
    · obtain ⟨_, _, call⟩ := Option.bind_eq_some_iff.mp call
      dsimp only at call
      split at call
      · cases call
        exact .inl rfl
      · obtain ⟨_, _, call⟩ := Option.bind_eq_some_iff.mp call
        cases call
        exact .inl rfl
    · cases call
      exact .inr (.inr ⟨.write path data size.toNat, trivial, _, rfl⟩)
  | append path data size =>
    cases run
    exact .inr (.inr ⟨.append path data size.toNat, trivial, _, rfl⟩)
  | changeDir path =>
    obtain ⟨⟨code, last⟩, call, rfl⟩ := Option.map_eq_some_iff.mp run
    obtain ⟨⟨result, ram⟩, changed, same⟩ := Option.map_eq_some_iff.mp call
    obtain ⟨rfl, rfl⟩ := Prod.mk.inj same
    exact .inr (.inr ⟨.changeDir path, keeps, result, changed⟩)
  | clearCache =>
    cases run
    exact .inr (.inr ⟨.clearCache, trivial, _, rfl⟩)
  | enableDisk drive now ambient =>
    obtain ⟨⟨ret, last⟩, call, rfl⟩ := Option.map_eq_some_iff.mp run
    rw [FileSystem.enableDisk] at call
    obtain ⟨_, _, call⟩ := Option.bind_eq_some_iff.mp call
    dsimp only at call
    split at call
    · obtain ⟨_, _, call⟩ := Option.bind_eq_some_iff.mp call
      cases call
      exact .inl rfl
    · cases call
      exact .inl rfl
  | sync =>
    cases run
    rw [FileSystem.sync]
    split <;> exact .inl rfl
  | format drive now =>
    obtain ⟨_, _, rfl⟩ := Option.map_eq_some_iff.mp run
    exact .inl rfl
  | mount drive =>
    cases run
    exact .inl rfl
  | unmount =>
    cases run
    exact .inl rfl

theorem reachable_ram {disk : Diskfs} (run : Reachable KeepingStep (init disk) fs) :
    Reachable RamFs.KeepingStep RamFs.init fs.ram := by
  induction run with
  | refl => exact .refl
  | tail _ step reached =>
    obtain ⟨call, keeps, done⟩ := step
    rcases call.run_ram keeps done with same | fresh | step
    · rw [same]
      exact reached
    · rw [fresh]
    · exact reached.tail step

/-- After a run that keeps the current directory a new path behaves as one file
exactly when the file is kept in memory and its last component is not `.` or
`..`. -/
theorem one_namespace_in_memory {disk : Diskfs} (run : Reachable KeepingStep (init disk) fs) (path : CString)
    (ambient : Ambient) (created : fs.createFile path ambient = some (0, after)) :
    after.OneNamespace path ↔
      fs.diskEnabled = false ∧ RamFs.baseName path ≠ [dot] ∧ RamFs.baseName path ≠ [dot, dot] := by
  have rooted := RamFs.Rooted.of_reachable (reachable_ram run)
  cases enabled : fs.diskEnabled with
  | true =>
    have still : after.diskEnabled = true := by
      rw [createFile, if_pos enabled] at created
      obtain ⟨_, _, created⟩ := Option.bind_eq_some_iff.mp created
      obtain ⟨_, _, created⟩ := Option.bind_eq_some_iff.mp created
      dsimp only at created
      split at created
      · cases created
      · obtain ⟨_, _, created⟩ := Option.bind_eq_some_iff.mp created
        rw [← (Prod.mk.inj (Option.some.inj created)).2]
        exact enabled
    exact iff_of_false (not_oneNamespace_of_disk still) (fun memory => absurd memory.1 (by decide))
  | false =>
    rw [createFile, if_neg (by simp [enabled])] at created
    obtain ⟨code, rfl⟩ := Prod.mk.inj (Option.some.inj created)
    rcases RamFs.createNode_cases fs.ram path (fun _ name parentIdx =>
      { name, type := .file, used := true, size := 0, parentIdx, data := Bytes.zero }) with
      ⟨error, failed⟩ | ⟨idx, name, parentIdx, filled⟩
    · rw [RamFs.createFile, failed] at code
      exact absurd code error.code_neg.ne
    · have base := RamFs.resolvePath_baseName filled.resolved
      have result : (fs.ram.createFile path).2 = _ := congrArg Prod.snd filled.result
      rw [result, ← base]
      by_cases proper : RamFs.Proper name
      · exact iff_of_true (oneNamespace_of_created enabled rooted filled proper rfl rfl rfl rfl) ⟨rfl, proper.2⟩
      · refine iff_of_false ?_ (fun memory => proper ⟨filled.nonempty, memory.2⟩)
        intro one
        have dir := filled.resolved_dir rooted proper
          { name, type := .file, used := true, size := 0, parentIdx, data := Bytes.zero } fun _ => filled.fresh
        have notDir := one.2.1
        rw [isDir] at notDir
        dsimp only at notDir
        rw [dir] at notDir
        cases notDir

theorem one_namespace_in_memory_first_file : ∃ after,
    (init (Diskfs.uniform 0)).createFile RamFs.letterA Ambient.zero = some (0, after) ∧ after.OneNamespace RamFs.letterA :=
  ⟨_, rfl, (one_namespace_in_memory .refl RamFs.letterA Ambient.zero rfl).mpr (by decide +kernel)⟩

theorem slashA_clean : 0 ∉ [slash, 97] := by decide

/-- The path `/a`. -/
def slashA : CString := ⟨[slash, 97], slashA_clean⟩

/-- Once the disk is enabled `fs_exists` does not see the files that
`fs_create_file` makes there. -/
theorem two_namespaces_with_disk : ¬ ∀ disk : Diskfs, (∀ drive : Byte, drive.toNat < 4 → disk.ata.Working drive) →
    ∀ fs, Reachable KeepingStep (init disk) fs → ∀ path ambient after, fs.createFile path ambient = some (0, after) →
      after.OneNamespace path := by
  intro holds
  have check : ((init (Diskfs.uniform 0)).enableDisk 0 0 fun _ => Ambient.zero).any (fun enabled =>
      (enabled.2.createFile slashA Ambient.zero).any fun created =>
        decide (created.1 = 0) && !created.2.fsExists slashA) = true := by
    decide +kernel
  obtain ⟨⟨ret, enabled⟩, enable, check⟩ := (Option.any_eq_true _ _).mp check
  obtain ⟨⟨code, after⟩, create, check⟩ := (Option.any_eq_true _ _).mp check
  obtain ⟨succeeded, missing⟩ := Bool.and_eq_true_iff.mp check
  have zero : code = 0 := of_decide_eq_true succeeded
  subst zero
  have run : Reachable KeepingStep (init (Diskfs.uniform 0)) enabled := by
    refine .single ⟨.enableDisk 0 0 fun _ => Ambient.zero, trivial, ?_⟩
    rw [Call.run, enable]
    rfl
  have one := holds _ (fun drive small => Diskfs.uniform_working 0 drive small) _ run _ _ _ create
  rw [one.1] at missing
  cases missing

end FileSystem

end MexOS.Fs
