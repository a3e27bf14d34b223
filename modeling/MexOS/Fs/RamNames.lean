import MexOS.Fs.RamLabels

/-! The names of the nodes in memory, as long as the current directory is not
removed. -/

namespace MexOS.Fs.RamFs

open MexOS.Machine

/-- Nodes called `.` or `..` can be created, but no path leads to them. -/
def Dotted (fs : RamFs) (i : Index) : Prop := (fs.nodes i).name = [dot] ∨ (fs.nodes i).name = [dot, dot]

instance (fs : RamFs) (i : Index) : Decidable (fs.Dotted i) := inferInstanceAs (Decidable (_ ∨ _))

structure WellNamed (fs : RamFs) : Prop where
  component : ∀ i, (fs.nodes i).used = true → i ≠ 0 → Component (fs.nodes i).name
  unique : ∀ i j, (fs.nodes i).used = true → (fs.nodes j).used = true → i ≠ 0 → j ≠ 0 → fs.up i = fs.up j →
    (fs.nodes i).name = (fs.nodes j).name → i = j
  rootName : (fs.nodes 0).name = [slash]
  parents : ∀ i, (fs.nodes i).used = true → ¬ fs.Dotted (fs.up i)
  cwd : ¬ fs.Dotted fs.cwdIdx

/-- All that is known of a state in which the current directory was never
removed. -/
structure Sound (fs : RamFs) : Prop extends Rooted fs where
  named : WellNamed fs

variable {fs : RamFs} {idx : Index} {path : CString} {basename : List Byte}

theorem Sound.parentDir_undotted (sound : Sound fs) (used : (fs.nodes idx).used = true) (plain : ¬ fs.Dotted idx) :
    ¬ fs.Dotted (fs.parentDir idx) := by
  unfold parentDir
  split
  · exact sound.named.parents idx used
  · exact plain

theorem Sound.root_undotted (sound : Sound fs) : ¬ fs.Dotted 0 := by
  rw [Dotted, sound.named.rootName]
  decide

theorem undotted_of_find {dirIdx : Index} {name : List Byte} (found : fs.findNodeInDir dirIdx name = some idx)
    (proper : Proper name) : ¬ fs.Dotted idx := by
  rw [Dotted, (findNodeInDir_some found).2.2, not_or]
  exact proper.2

theorem Sound.resolvePath_undotted (sound : Sound fs) (resolved : fs.resolvePath path = .ok (idx, basename)) :
    fs.Dir idx ∧ ¬ fs.Dotted idx := by
  refine @resolvePath_invariant fs idx path basename (fun i => fs.Dir i ∧ ¬ fs.Dotted i) ?_ ?_ ?_ ?_ resolved
  · exact fun i ⟨dir, plain⟩ => ⟨parentDir_dir sound.parents dir, sound.parentDir_undotted dir.1 plain⟩
  · exact fun i name idx _ proper found dir => ⟨⟨(findNodeInDir_some found).1, dir⟩, undotted_of_find found proper⟩
  · exact ⟨sound.root, sound.root_undotted⟩
  · exact ⟨sound.cwd, sound.named.cwd⟩

/-- No path leads to a node called `.` or `..`. -/
theorem Sound.resolveFullPath_undotted (sound : Sound fs) (resolved : fs.resolveFullPath path = .ok idx) :
    ¬ fs.Dotted idx := by
  cases named_of_resolved resolved with
  | root _ top =>
    rw [top]
    exact sound.root_undotted
  | itself found _ => exact (sound.resolvePath_undotted found).2
  | parent found up =>
    obtain ⟨dir, plain⟩ := sound.resolvePath_undotted found
    rw [up]
    exact sound.parentDir_undotted dir.1 plain
  | child _ proper present => exact undotted_of_find present proper

section Preservation

variable {after : RamFs} {node : FsNode}

theorem WellNamed.labelled (named : WellNamed fs) : Labelled fs := ⟨named.component, named.unique⟩

/-- Names stay well formed when every node that is used afterwards was used
before with the same name and parent. -/
theorem WellNamed.shrink (named : WellNamed fs)
    (kept : ∀ i, (after.nodes i).used = true → (fs.nodes i).used = true)
    (name : ∀ i, (after.nodes i).used = true → (after.nodes i).name = (fs.nodes i).name ∧ after.up i = fs.up i)
    (parents : ∀ i, (after.nodes i).used = true → (after.nodes (after.up i)).used = true)
    (root : (after.nodes 0).used = true) (cwd : ¬ after.Dotted after.cwdIdx) : WellNamed after := by
  have labelled := named.labelled.shrink kept name
  refine ⟨labelled.component, labelled.unique, ?_, ?_, cwd⟩
  · rw [(name 0 root).1]
    exact named.rootName
  · intro i used
    have above := (name _ (parents i used)).1
    rw [Dotted, above, (name i used).2]
    exact named.parents i (kept i used)

/-- A new name that no other child of the directory has. -/
theorem WellNamed.insert (named : WellNamed fs) (rooted : Rooted fs) (free : (fs.nodes idx).used = false)
    (component : Component node.name) (parent : fs.Dir node.parentIdx ∧ ¬ fs.Dotted node.parentIdx)
    (fresh : fs.findNodeInDir node.parentIdx node.name = none) : WellNamed (fs.setNode idx node) := by
  have kept (i : Index) (isUsed : (fs.nodes i).used = true) : (fs.setNode idx node).nodes i = fs.nodes i := by
    refine setNode_other fs node ?_
    rintro rfl
    rw [free] at isUsed
    cases isUsed
  have undotted (i : Index) (isUsed : (fs.nodes i).used = true) (plain : ¬ fs.Dotted i) :
      ¬ (fs.setNode idx node).Dotted i := by
    rw [Dotted, kept i isUsed]
    exact plain
  have labelled : Labelled (fs.setNode idx node) := named.labelled.insert component fresh
  refine ⟨labelled.component, labelled.unique, ?_, ?_, undotted _ rooted.cwd.1 named.cwd⟩
  · rw [kept 0 rooted.root.1]
    exact named.rootName
  · intro i isUsed
    by_cases here : i = idx
    · subst here
      rw [up, setNode_self]
      exact undotted _ parent.1.1 parent.2
    · rw [setNode_other fs node here] at isUsed
      rw [up, setNode_other fs node here]
      exact undotted _ (rooted.parents i isUsed).1 (named.parents i isUsed)

end Preservation

/-- Rewriting the data of a node. -/
theorem Sound.rewrite (sound : Sound fs) {node : FsNode} (used : node.used = (fs.nodes idx).used)
    (name : node.name = (fs.nodes idx).name) (up : node.parentIdx = fs.up idx) : WellNamed (fs.setNode idx node) := by
  have same (i : Index) : ((fs.setNode idx node).nodes i).used = (fs.nodes i).used ∧
      ((fs.setNode idx node).nodes i).name = (fs.nodes i).name ∧ (fs.setNode idx node).up i = fs.up i := by
    by_cases here : i = idx
    · subst here
      rw [RamFs.up, setNode_self]
      exact ⟨used, name, up⟩
    · rw [RamFs.up, setNode_other fs node here]
      exact ⟨rfl, rfl, rfl⟩
  refine sound.named.shrink ?_ (fun i _ => (same i).2) ?_ ?_ ?_
  · intro i isUsed
    rwa [(same i).1] at isUsed
  · intro i isUsed
    rw [(same i).1] at isUsed
    rw [(same i).2.2, (same _).1]
    exact (sound.parents i isUsed).1
  · rw [(same 0).1]
    exact sound.root.1
  · rw [Dotted, setNode_cwdIdx, (same _).2.1]
    exact sound.named.cwd

theorem Sound.run (sound : Sound fs) {call : Call} (keeps : call.Keeps fs)
    (result : call.run fs = some (code, after)) : Sound after := by
  have rooted := sound.toRooted.run keeps result
  refine ⟨rooted, ?_⟩
  cases call.outcome result with
  | failed => exact sound.named
  | created node _ resolved nonempty fresh free =>
    exact sound.named.insert sound.toRooted free (resolvePath_component resolved nonempty)
      (sound.resolvePath_undotted resolved) fresh
  | @removed _ idx resolved inner kept =>
    have remains (i : Index) (isUsed : ((fs.setNode idx FsNode.zero).nodes i).used = true) : i ≠ idx := by
      rintro rfl
      rw [setNode_self] at isUsed
      cases isUsed
    have same (i : Index) (isUsed : ((fs.setNode idx FsNode.zero).nodes i).used = true) :
        (fs.setNode idx FsNode.zero).nodes i = fs.nodes i := setNode_other fs _ (remains i isUsed)
    refine sound.named.shrink ?_ ?_ (fun i isUsed => (rooted.parents i isUsed).1) rooted.root.1 ?_
    · intro i isUsed
      rwa [same i isUsed] at isUsed
    · intro i isUsed
      rw [RamFs.up, same i isUsed]
      exact ⟨rfl, rfl⟩
    · rw [Dotted, same _ rooted.cwd.1]
      exact sound.named.cwd
  | written | appended => exact sound.rewrite rfl rfl rfl
  | @moved idx _ cwd place =>
    have moved (plain : ¬ fs.Dotted idx) : WellNamed { fs with cwdIdx := idx, cwd } :=
      ⟨sound.named.component, sound.named.unique, sound.named.rootName, sound.named.parents, plain⟩
    rcases place with rfl | ⟨resolved, _⟩
    · exact moved sound.root_undotted
    · exact moved (sound.resolveFullPath_undotted resolved)
  | cleared =>
    have root (i : Index) (isUsed : (fs.clearCache.nodes i).used = true) : i = 0 := by
      by_contra other
      simp only [RamFs.clearCache, other, ↓reduceIte] at isUsed
      cases isUsed
    refine sound.named.shrink ?_ ?_ (fun i isUsed => (rooted.parents i isUsed).1) rooted.root.1 sound.root_undotted
    · intro i isUsed
      rw [root i isUsed]
      exact sound.root.1
    · intro i isUsed
      rw [root i isUsed]
      exact ⟨rfl, rfl⟩

theorem sound_init : Sound init := by
  have root (i : Index) (isUsed : (init.nodes i).used = true) : i = 0 := by
    by_contra other
    simp only [init, Function.update_of_ne other] at isUsed
    cases isUsed
  refine ⟨rooted_init, labelled_init.component, labelled_init.unique, rfl, ?_, by decide⟩
  intro i isUsed
  rw [root i isUsed]
  decide

theorem Sound.of_reachable (run : Reachable KeepingStep init fs) : Sound fs :=
  run.invariant sound_init fun _ _ sound ⟨_, keeps, _, result⟩ => sound.run keeps result

end MexOS.Fs.RamFs
