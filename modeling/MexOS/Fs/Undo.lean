import MexOS.Fs.Namespace

/-! A created node is found by its path and goes away again without a trace. -/

namespace MexOS.Fs

open MexOS.Machine

namespace RamFs

/-- Nodes that are not used are all zero. -/
def Cleared (fs : RamFs) : Prop := ∀ i, (fs.nodes i).used = false → fs.nodes i = FsNode.zero

section Clearing

variable {fs : RamFs} {idx : Index} {path : CString}

theorem cleared_init : Cleared init := by
  intro i unused
  by_cases root : i = 0
  · subst root
    cases unused
  · simp only [init, Function.update_of_ne root]

theorem Cleared.setNode (cleared : Cleared fs) {node : FsNode} (kept : node.used = false → node = FsNode.zero) :
    Cleared (fs.setNode idx node) := by
  intro i unused
  by_cases here : i = idx
  · subst here
    rw [setNode_self] at unused ⊢
    exact kept unused
  · rw [setNode_other fs node here] at unused ⊢
    exact cleared i unused

/-- The node that is written to is in use. -/
theorem Cleared.rewrite (cleared : Cleared fs) (rooted : Rooted fs) (resolved : fs.resolveFullPath path = .ok idx)
    {node : FsNode} (same : node.used = (fs.nodes idx).used) : Cleared (fs.setNode idx node) := by
  refine cleared.setNode fun unused => ?_
  rw [same, rooted.resolveFullPath_used resolved] at unused
  cases unused

theorem Cleared.run (cleared : Cleared fs) (rooted : Rooted fs) {call : Call}
    (result : call.run fs = some (code, after)) : Cleared after := by
  cases call.outcome result with
  | failed => exact cleared
  | created node _ _ _ _ _ used =>
    refine cleared.setNode fun unused => ?_
    rw [used] at unused
    cases unused
  | removed => exact cleared.setNode fun _ => rfl
  | written resolved | appended resolved => exact cleared.rewrite rooted resolved rfl
  | moved => exact cleared
  | cleared =>
    intro i unused
    rw [RamFs.clearCache] at unused ⊢
    dsimp only at unused ⊢
    by_cases root : i = 0
    · rw [if_pos root] at unused ⊢
      exact cleared i unused
    · rw [if_neg root]

theorem of_reachable (run : Reachable KeepingStep init fs) : Rooted fs ∧ Cleared fs := by
  refine @Reachable.invariant _ _ _ _ (fun fs => Rooted fs ∧ Cleared fs) run ⟨rooted_init, cleared_init⟩ ?_
  rintro before after ⟨rooted, cleared⟩ ⟨call, keeps, code, result⟩
  exact ⟨rooted.run keeps result, cleared.run rooted result⟩

end Clearing

/-- The path is that of the one node which came into use, and `fs_remove`
takes everything back. -/
def Undone (before after : RamFs) (path : CString) : Prop :=
  ∃ idx, after.resolveFullPath path = .ok idx ∧
    (∀ i, (before.nodes i).used = false ∧ (after.nodes i).used = true ↔ i = idx) ∧ after.remove path = (0, before)

section Creating

variable {fs after : RamFs} {path : CString} {fill : FsNode → List Byte → Index → FsNode}

theorem Cleared.setNode_zero (cleared : Cleared fs) {idx : Index} (free : (fs.nodes idx).used = false) :
    fs.setNode idx FsNode.zero = fs := by
  rw [RamFs.setNode, ← cleared idx free, Function.update_eq_self]

theorem createNode_undone (rooted : Rooted fs) (cleared : Cleared fs)
    (used : ∀ old name parentIdx, (fill old name parentIdx).used = true)
    (named : ∀ old name parentIdx, (fill old name parentIdx).name = name)
    (parent : ∀ old name parentIdx, (fill old name parentIdx).parentIdx = parentIdx)
    (call : fs.createNode path fill = (0, after)) :
    Undone fs after path ↔ baseName path ≠ [dot] ∧ baseName path ≠ [dot, dot] := by
  rcases createNode_cases fs path fill with ⟨error, failed⟩ | ⟨idx, name, parentIdx, created⟩
  · rw [failed] at call
    exact absurd (congrArg Prod.fst call) error.code_neg.ne
  · rw [← resolvePath_baseName created.resolved]
    have same : fs.setNode idx (fill (fs.nodes idx) name parentIdx) = after := by
      rw [created.result] at call
      exact congrArg Prod.snd call
    have isUsed := used (fs.nodes idx) name parentIdx
    have isNamed := named (fs.nodes idx) name parentIdx
    have isChild := parent (fs.nodes idx) name parentIdx
    generalize fill (fs.nodes idx) name parentIdx = node at same isUsed isNamed isChild
    subst same
    by_cases proper : Proper name
    · refine iff_of_true ⟨idx, created.resolved_again rooted proper isUsed isNamed isChild, ?_, ?_⟩ proper.2
      · intro i
        by_cases here : i = idx
        · subst here
          rw [setNode_self]
          exact iff_of_true ⟨created.free, isUsed⟩ rfl
        · rw [setNode_other fs node here]
          refine iff_of_false ?_ here
          rintro ⟨unused, present⟩
          rw [unused] at present
          cases present
      · rw [created.removed rooted proper isUsed isNamed isChild, cleared.setNode_zero created.free]
    · refine iff_of_false ?_ fun plain => proper ⟨created.nonempty, plain⟩
      rintro ⟨found, resolved, only, _⟩
      have fresh : node.used = true → fs.findNodeInDir node.parentIdx node.name = none := by
        intro _
        rw [isNamed, isChild]
        exact created.fresh
      -- The path leads to a directory that was in use before the call.
      obtain ⟨i, dir, elsewhere⟩ := created.resolved_dotted rooted proper node fresh
      rw [resolved] at elsewhere
      cases elsewhere
      have unused := ((only found).mpr rfl).1
      rw [dir.1] at unused
      cases unused

end Creating

end RamFs

namespace FileSystem

/-- `fs_create_file` or `fs_create_dir` returns `FS_ERR_OK`. -/
def Makes (before : FileSystem) (path : CString) (after : FileSystem) : Prop :=
  (∃ ambient, before.createFile path ambient = some (0, after)) ∨ before.createDir path = (0, after)

/-- The path is that of the one node which came into use, and `fs_remove`
takes everything back. -/
def Undone (before after : FileSystem) (path : CString) : Prop :=
  ∃ idx, after.ram.resolveFullPath path = .ok idx ∧
    (∀ i, (before.ram.nodes i).used = false ∧ (after.ram.nodes i).used = true ↔ i = idx) ∧
    after.remove path = (0, before)

variable {fs after : FileSystem} {path : CString}

/-- Only the nodes in memory have changed. -/
theorem undone_iff {ram : RamFs} : Undone fs { fs with ram } path ↔ RamFs.Undone fs.ram ram path := by
  have same : ({ fs with ram } : FileSystem).remove path = (0, fs) ↔ ram.remove path = (0, fs.ram) := by
    rw [remove]
    constructor
    · intro removed
      exact Prod.ext (congrArg (fun result => result.1) removed) (congrArg (fun result => result.2.ram) removed)
    · intro removed
      rw [removed]
  rw [Undone, RamFs.Undone]
  simp only [same]

/-- After a run that keeps the current directory, with the disk not enabled,
`fs_remove` undoes `fs_create_file` and `fs_create_dir` exactly for the paths
whose last component is not `.` or `..`. -/
theorem create_undone {disk : Diskfs} (run : Reachable KeepingStep (init disk) fs) (memory : fs.diskEnabled = false)
    (made : fs.Makes path after) :
    Undone fs after path ↔ RamFs.baseName path ≠ [dot] ∧ RamFs.baseName path ≠ [dot, dot] := by
  obtain ⟨rooted, cleared⟩ := RamFs.of_reachable (reachable_ram run)
  rcases made with ⟨ambient, call⟩ | call
  · rw [createFile, if_neg (by simp [memory])] at call
    obtain ⟨code, rfl⟩ := Prod.mk.inj (Option.some.inj call)
    rw [undone_iff]
    exact RamFs.createNode_undone rooted cleared (by intros; rfl) (by intros; rfl) (by intros; rfl) (Prod.ext code rfl)
  · obtain ⟨code, rfl⟩ := Prod.mk.inj call
    rw [undone_iff]
    exact RamFs.createNode_undone rooted cleared (by intros; rfl) (by intros; rfl) (by intros; rfl) (Prod.ext code rfl)

/-- In a directory made in the root. -/
theorem create_undone_inside : Undone { init (Diskfs.uniform 0) with ram := RamFs.inside }
    ({ init (Diskfs.uniform 0) with ram := RamFs.inside }.createDir RamFs.letterA).2 RamFs.letterA := by
  have made : KeepingStep (init (Diskfs.uniform 0)) ((init (Diskfs.uniform 0)).createDir RamFs.letterA).2 :=
    ⟨.createDir RamFs.letterA, trivial, rfl⟩
  have changed : (RamFs.init.createDir RamFs.letterA).2.changeDir RamFs.letterA = some (0, RamFs.inside) := rfl
  have run : Reachable KeepingStep (init (Diskfs.uniform 0)) { init (Diskfs.uniform 0) with ram := RamFs.inside } := by
    refine (Relation.ReflTransGen.single made).tail ⟨.changeDir RamFs.letterA, ?_, ?_⟩
    · exact (@RamFs.Call.fits_iff (RamFs.init.createDir RamFs.letterA).2 (.changeDir RamFs.letterA)).mpr ⟨_, _, changed⟩
    · rfl
  exact (create_undone run rfl (.inr (Prod.ext (by decide +kernel) rfl))).mpr (by decide +kernel)

/-- A file named `.` is not what the path `.` leads to. -/
theorem create_not_undone : ¬ ∀ disk fs, Reachable KeepingStep (init disk) fs → fs.diskEnabled = false →
    ∀ path after, path.bytes.length ≤ 127 → fs.Makes path after → Undone fs after path := by
  intro holds
  obtain ⟨idx, resolved, only, _⟩ := holds (Diskfs.uniform 0) _ .refl rfl ⟨[dot], by decide⟩ _ (by decide)
    (.inl ⟨Ambient.zero, rfl⟩)
  have top : Except.ok 0 = Except.ok idx := resolved
  cases top
  have unused := ((only 0).mpr rfl).1
  cases unused

end FileSystem

end MexOS.Fs
