import MexOS.Fs.RamFs
import MexOS.Machine.Transition

/-! The nodes in memory as a tree with the current directory in it. -/

namespace MexOS.Fs.RamFs

open MexOS.Machine

/-- A used directory. -/
def Dir (fs : RamFs) (i : Index) : Prop := (fs.nodes i).used = true ∧ (fs.nodes i).type = .dir

instance (fs : RamFs) (i : Index) : Decidable (fs.Dir i) := inferInstanceAs (Decidable (_ ∧ _))

def up (fs : RamFs) (i : Index) : Index := (fs.nodes i).parentIdx

/-- Follow `parent_idx` so many times. -/
def climb (fs : RamFs) : Nat → Index → Index
  | 0, i => i
  | steps + 1, i => fs.climb steps (fs.up i)

structure Tree (fs : RamFs) : Prop where
  root : fs.Dir 0
  parents : ∀ i, (fs.nodes i).used = true → fs.Dir (fs.up i)
  reaches : ∀ i, (fs.nodes i).used = true → ∃ steps, fs.climb steps i = 0
  cwd : fs.Dir fs.cwdIdx

/-- The root is its own parent as well. -/
structure Rooted (fs : RamFs) : Prop extends Tree fs where
  rootParent : fs.up 0 = 0

section Lookup

variable {fs : RamFs} {dirIdx idx : Index} {name : List Byte}

theorem findNodeInDir_some (found : fs.findNodeInDir dirIdx name = some idx) :
    (fs.nodes idx).used = true ∧ fs.up idx = dirIdx ∧ (fs.nodes idx).name = name := by
  have matched := List.find?_some found
  simp only [Bool.and_eq_true, beq_iff_eq] at matched
  exact ⟨matched.1.1, matched.1.2, matched.2⟩

theorem findNodeInDir_none (missing : fs.findNodeInDir dirIdx name = none) (used : (fs.nodes idx).used = true)
    (child : fs.up idx = dirIdx) : (fs.nodes idx).name ≠ name := by
  intro same
  have absent := List.find?_eq_none.mp missing idx (List.mem_finRange idx)
  simp only [used, Bool.true_and, Bool.and_eq_true, beq_iff_eq, not_and] at absent
  exact absent child same

theorem findFreeNode_some (found : fs.findFreeNode = some idx) : (fs.nodes idx).used = false := by
  simpa using List.find?_some found

theorem hasChild_iff : fs.hasChild idx = true ↔ ∃ i, (fs.nodes i).used = true ∧ fs.up i = idx := by
  simp [hasChild, indices, up]

end Lookup

/-- A component that is looked up. -/
def Proper (name : List Byte) : Prop := name ≠ [] ∧ name ≠ [dot] ∧ name ≠ [dot, dot]

instance (name : List Byte) : Decidable (Proper name) := inferInstanceAs (Decidable (_ ∧ _ ∧ _))

/-- The ways in which a path names a node. -/
inductive Named (fs : RamFs) (path : CString) (idx : Index) : Prop
  | root : path.bytes = [slash] → idx = 0 → Named fs path idx
  | itself : fs.resolvePath path = .ok (idx, basename) → basename = [] ∨ basename = [dot] → Named fs path idx
  | parent : fs.resolvePath path = .ok (parentIdx, [dot, dot]) → idx = fs.parentDir parentIdx → Named fs path idx
  | child : fs.resolvePath path = .ok (parentIdx, basename) → Proper basename →
    fs.findNodeInDir parentIdx basename = some idx → Named fs path idx

section Resolving

variable {fs : RamFs} {current idx : Index} {path : CString} {basename : List Byte}

theorem walk_proper {token : List Byte} (proper : Proper (cutName token)) (rest : List (List Byte)) :
    fs.walk current (token :: rest) =
      match fs.findNodeInDir current (cutName token) with
      | none => .error .notFound
      | some idx => if (fs.nodes idx).type ≠ .dir then .error .notFound else fs.walk idx rest := by
  obtain ⟨nonempty, single, double⟩ := proper
  cases found : fs.findNodeInDir current (cutName token) with
  | none => simp only [walk, nonempty, single, double, ↓reduceIte, found]
  | some idx => simp only [walk, nonempty, single, double, ↓reduceIte, found]

/-- What holds where the walk starts, of parents and of directories that are
found, holds where it ends. -/
theorem walk_invariant {holds : Index → Prop} (parent : ∀ i, holds i → holds (fs.parentDir i))
    (child : ∀ i name idx, holds i → Proper name → fs.findNodeInDir i name = some idx → (fs.nodes idx).type = .dir →
      holds idx)
    (start : holds current) {tokens : List (List Byte)} (walked : fs.walk current tokens = .ok idx) : holds idx := by
  induction tokens generalizing current with
  | nil =>
    cases walked
    exact start
  | cons token rest ih =>
    by_cases proper : Proper (cutName token)
    · rw [walk_proper proper] at walked
      split at walked
      · cases walked
      · next next found =>
        split at walked
        · cases walked
        · next dir => exact ih (child current _ next start proper found (by simpa using dir)) walked
    · simp only [walk] at walked
      split at walked
      · exact ih start walked
      · split at walked
        · exact ih start walked
        · split at walked
          · exact ih (parent current start) walked
          · next nonempty single double => exact absurd ⟨nonempty, single, double⟩ proper

theorem resolvePath_invariant {holds : Index → Prop} (parent : ∀ i, holds i → holds (fs.parentDir i))
    (child : ∀ i name idx, holds i → Proper name → fs.findNodeInDir i name = some idx → (fs.nodes idx).type = .dir →
      holds idx)
    (root : holds 0) (cwd : holds fs.cwdIdx) (resolved : fs.resolvePath path = .ok (idx, basename)) : holds idx := by
  have start : holds (if (path.bytes.take (fsMaxPath - 1)).head? = some slash then 0 else fs.cwdIdx) := by
    split
    · exact root
    · exact cwd
  unfold resolvePath at resolved
  split at resolved
  · cases resolved
  · dsimp only at resolved
    split at resolved
    · cases resolved
      exact start
    · split at resolved
      · cases resolved
      · next walked =>
        cases resolved
        exact walk_invariant parent child start walked

theorem named_of_resolved (resolved : fs.resolveFullPath path = .ok idx) : Named fs path idx := by
  unfold resolveFullPath at resolved
  split at resolved
  · cases resolved
  · split at resolved
    · next top =>
      cases resolved
      exact .root top rfl
    · split at resolved
      · cases resolved
      · next parentIdx basename found =>
        split at resolved
        · next empty =>
          cases resolved
          exact .itself found (.inl empty)
        · next nonempty =>
          split at resolved
          · next single =>
            cases resolved
            exact .itself found (.inr single)
          · next single =>
            split at resolved
            · next double =>
              cases resolved
              exact .parent (double ▸ found) rfl
            · next double =>
              split at resolved
              · cases resolved
              · next present =>
                cases resolved
                exact .child found ⟨nonempty, single, double⟩ present

theorem parentDir_dir (parents : ∀ i, (fs.nodes i).used = true → fs.Dir (fs.up i)) (start : fs.Dir current) :
    fs.Dir (fs.parentDir current) := by
  unfold parentDir
  split
  · exact parents current start.1
  · exact start

/-- Every directory on the way is used. -/
theorem Tree.resolvePath_dir (tree : Tree fs) (resolved : fs.resolvePath path = .ok (idx, basename)) : fs.Dir idx := by
  refine resolvePath_invariant ?_ ?_ tree.root tree.cwd resolved
  · exact fun i dir => parentDir_dir tree.parents dir
  · exact fun i name idx _ _ found dir => ⟨(findNodeInDir_some found).1, dir⟩

theorem Tree.resolveFullPath_used (tree : Tree fs) (resolved : fs.resolveFullPath path = .ok idx) :
    (fs.nodes idx).used = true := by
  cases named_of_resolved resolved with
  | root _ top =>
    rw [top]
    exact tree.root.1
  | itself found _ => exact (tree.resolvePath_dir found).1
  | parent found up =>
    rw [up]
    exact (parentDir_dir tree.parents (tree.resolvePath_dir found)).1
  | child _ _ present => exact (findNodeInDir_some present).1

end Resolving

section Nodes

variable {fs after : RamFs} {idx : Index} {node : FsNode}

@[simp] theorem setNode_cwdIdx (fs : RamFs) (idx : Index) (node : FsNode) : (fs.setNode idx node).cwdIdx = fs.cwdIdx := rfl

@[simp] theorem setNode_self (fs : RamFs) (idx : Index) (node : FsNode) : (fs.setNode idx node).nodes idx = node :=
  Function.update_self _ _ _

theorem setNode_other (fs : RamFs) {idx i : Index} (node : FsNode) (other : i ≠ idx) :
    (fs.setNode idx node).nodes i = fs.nodes i :=
  Function.update_of_ne other _ _

/-- A climb that stays among nodes that are the same in both tables. -/
theorem climb_congr {within : Index → Prop} (closed : ∀ i, within i → within (fs.up i))
    (same : ∀ i, within i → after.up i = fs.up i) (steps : Nat) {i : Index} (start : within i) :
    after.climb steps i = fs.climb steps i := by
  induction steps generalizing i with
  | zero => rfl
  | succ steps ih =>
    rw [climb, climb, same i start]
    exact ih (closed i start)

/-- The tree looks at the use, the type and the parent of the nodes alone. -/
theorem Rooted.congr (rooted : Rooted fs) (used : ∀ i, (after.nodes i).used = (fs.nodes i).used)
    (type : ∀ i, (after.nodes i).type = (fs.nodes i).type) (up : ∀ i, after.up i = fs.up i)
    (cwd : after.Dir after.cwdIdx) : Rooted after := by
  have dir (i : Index) : after.Dir i ↔ fs.Dir i := by rw [Dir, Dir, used, type]
  refine ⟨⟨(dir 0).mpr rooted.root, ?_, ?_, cwd⟩, (up 0).trans rooted.rootParent⟩
  · intro i isUsed
    rw [dir, up]
    exact rooted.parents i ((used i).symm.trans isUsed)
  · intro i isUsed
    obtain ⟨steps, top⟩ := rooted.reaches i ((used i).symm.trans isUsed)
    refine ⟨steps, ?_⟩
    rw [@climb_congr fs after (fun _ => True) (fun _ _ => trivial) (fun i _ => up i) steps i trivial]
    exact top

/-- Rewriting the data of a node. -/
theorem Rooted.rewrite (rooted : Rooted fs) (used : node.used = (fs.nodes idx).used)
    (type : node.type = (fs.nodes idx).type) (up : node.parentIdx = fs.up idx) : Rooted (fs.setNode idx node) := by
  have same (i : Index) : ((fs.setNode idx node).nodes i).used = (fs.nodes i).used ∧
      ((fs.setNode idx node).nodes i).type = (fs.nodes i).type ∧ (fs.setNode idx node).up i = fs.up i := by
    by_cases here : i = idx
    · subst here
      rw [RamFs.up, setNode_self]
      exact ⟨used, type, up⟩
    · rw [RamFs.up, setNode_other fs node here]
      exact ⟨rfl, rfl, rfl⟩
  refine rooted.congr (fun i => (same i).1) (fun i => (same i).2.1) (fun i => (same i).2.2) ?_
  rw [Dir, setNode_cwdIdx, (same _).1, (same _).2.1]
  exact rooted.cwd

/-- A free node becomes a child of a directory. -/
theorem Rooted.insert (rooted : Rooted fs) (free : (fs.nodes idx).used = false)
    (parent : fs.Dir node.parentIdx) : Rooted (fs.setNode idx node) := by
  have apart (i : Index) (isUsed : (fs.nodes i).used = true) : i ≠ idx := by
    rintro rfl
    rw [free] at isUsed
    cases isUsed
  have kept (i : Index) (isUsed : (fs.nodes i).used = true) : (fs.setNode idx node).nodes i = fs.nodes i :=
    setNode_other fs node (apart i isUsed)
  have dirs (i : Index) (dir : fs.Dir i) : (fs.setNode idx node).Dir i := by
    rw [Dir, kept i dir.1]
    exact dir
  have climbs (steps : Nat) (i : Index) (isUsed : (fs.nodes i).used = true) :
      (fs.setNode idx node).climb steps i = fs.climb steps i := by
    refine @climb_congr fs _ (fun i => (fs.nodes i).used = true) ?_ ?_ steps i isUsed
    · exact fun i isUsed => (rooted.parents i isUsed).1
    · intro i isUsed
      rw [RamFs.up, kept i isUsed]
      rfl
  refine ⟨⟨dirs 0 rooted.root, ?_, ?_, dirs _ rooted.cwd⟩, ?_⟩
  · intro i isUsed
    by_cases here : i = idx
    · subst here
      rw [RamFs.up, setNode_self]
      exact dirs _ parent
    · rw [setNode_other fs node here] at isUsed
      rw [RamFs.up, setNode_other fs node here]
      exact dirs _ (rooted.parents i isUsed)
  · intro i isUsed
    by_cases here : i = idx
    · subst here
      obtain ⟨steps, top⟩ := rooted.reaches _ parent.1
      refine ⟨steps + 1, ?_⟩
      rw [climb, RamFs.up, setNode_self, climbs _ _ parent.1]
      exact top
    · rw [setNode_other fs node here] at isUsed
      obtain ⟨steps, top⟩ := rooted.reaches i isUsed
      exact ⟨steps, (climbs steps i isUsed).trans top⟩
  · rw [RamFs.up, kept 0 rooted.root.1]
    exact rooted.rootParent

/-- A node without children, other than the root and the current directory, is
removed. -/
theorem Rooted.erase (rooted : Rooted fs) (inner : idx ≠ 0) (elsewhere : fs.cwdIdx ≠ idx)
    (leaf : ∀ i, (fs.nodes i).used = true → fs.up i ≠ idx) : Rooted (fs.setNode idx FsNode.zero) := by
  have kept (i : Index) (other : i ≠ idx) : (fs.setNode idx FsNode.zero).nodes i = fs.nodes i :=
    setNode_other fs _ other
  have dirs (i : Index) (other : i ≠ idx) (dir : fs.Dir i) : (fs.setNode idx FsNode.zero).Dir i := by
    rw [Dir, kept i other]
    exact dir
  have remains (i : Index) (isUsed : ((fs.setNode idx FsNode.zero).nodes i).used = true) :
      i ≠ idx ∧ (fs.nodes i).used = true := by
    by_cases here : i = idx
    · subst here
      rw [setNode_self] at isUsed
      cases isUsed
    · rw [kept i here] at isUsed
      exact ⟨here, isUsed⟩
  refine ⟨⟨dirs 0 inner.symm rooted.root, ?_, ?_, dirs _ elsewhere rooted.cwd⟩, ?_⟩
  · intro i isUsed
    obtain ⟨other, before⟩ := remains i isUsed
    rw [RamFs.up, kept i other]
    exact dirs _ (leaf i before) (rooted.parents i before)
  · intro i isUsed
    obtain ⟨steps, top⟩ := rooted.reaches i (remains i isUsed).2
    refine ⟨steps, ?_⟩
    rw [@climb_congr fs _ (fun i => i ≠ idx ∧ (fs.nodes i).used = true) ?_ ?_ steps i (remains i isUsed)]
    · exact top
    · exact fun i within => ⟨leaf i within.2, (rooted.parents i within.2).1⟩
    · intro i within
      rw [RamFs.up, kept i within.1]
      rfl
  · rw [RamFs.up, kept 0 inner.symm]
    exact rooted.rootParent

end Nodes

theorem rooted_init : Rooted init := by
  have used (i : Index) (isUsed : (init.nodes i).used = true) : i = 0 := by
    by_contra other
    simp only [RamFs.init, Function.update_of_ne other] at isUsed
    cases isUsed
  refine ⟨⟨by decide, ?_, ?_, by decide⟩, by decide⟩
  · intro i isUsed
    rw [used i isUsed]
    decide
  · intro i isUsed
    exact ⟨0, used i isUsed⟩

section Calls

variable {fs : RamFs}

/-- A free node is filled in under a name that the directory does not have. -/
structure Created (fs : RamFs) (path : CString) (fill : FsNode → List Byte → Index → FsNode) (idx : Index)
    (name : List Byte) (parentIdx : Index) : Prop where
  resolved : fs.resolvePath path = .ok (parentIdx, name)
  nonempty : name ≠ []
  fresh : fs.findNodeInDir parentIdx name = none
  found : fs.findFreeNode = some idx
  result : fs.createNode path fill = (0, fs.setNode idx (fill (fs.nodes idx) name parentIdx))

theorem createNode_cases (fs : RamFs) (path : CString) (fill : FsNode → List Byte → Index → FsNode) :
    (∃ error : FsError, fs.createNode path fill = (error.code, fs)) ∨
      ∃ idx name parentIdx, Created fs path fill idx name parentIdx := by
  cases resolved : fs.resolvePath path with
  | error error => exact .inl ⟨error, by simp only [createNode, resolved]⟩
  | ok target =>
    obtain ⟨parentIdx, name⟩ := target
    by_cases nonempty : name = []
    · exact .inl ⟨.invalid, by simp only [createNode, resolved, nonempty, ↓reduceIte]⟩
    · cases fresh : fs.findNodeInDir parentIdx name with
      | some taken =>
        exact .inl ⟨.exists, by simp only [createNode, resolved, nonempty, ↓reduceIte, fresh, Option.isSome_some]⟩
      | none =>
        cases found : fs.findFreeNode with
        | none =>
          refine .inl ⟨.full, ?_⟩
          simp only [createNode, resolved, nonempty, ↓reduceIte, fresh, Option.isSome_none, Bool.false_eq_true, found]
        | some idx =>
          refine .inr ⟨idx, name, parentIdx, resolved, nonempty, fresh, found, ?_⟩
          simp only [createNode, resolved, nonempty, ↓reduceIte, fresh, Option.isSome_none, Bool.false_eq_true, found]

theorem Created.free (created : Created fs path fill idx name parentIdx) : (fs.nodes idx).used = false :=
  findFreeNode_some created.found

theorem remove_cases (fs : RamFs) (path : CString) :
    (∃ error : FsError, fs.remove path = (error.code, fs)) ∨
      ∃ idx, fs.resolveFullPath path = .ok idx ∧ idx ≠ 0 ∧ ¬ ((fs.nodes idx).type = .dir ∧ fs.hasChild idx = true) ∧
        fs.remove path = (0, fs.setNode idx FsNode.zero) := by
  unfold remove
  split
  · exact .inl ⟨_, rfl⟩
  · next idx resolved =>
    split
    · exact .inl ⟨_, rfl⟩
    · next inner =>
      split
      · exact .inl ⟨_, rfl⟩
      · next removed => exact .inr ⟨idx, resolved, inner, removed, rfl⟩

theorem write_eq {path : CString} {idx : Index} (resolved : fs.resolveFullPath path = .ok idx)
    (file : (fs.nodes idx).type = .file) (data : Bytes) (size : Nat) :
    fs.write path data size = (((min size fsMaxFileSize : Nat) : Int), fs.setNode idx { fs.nodes idx with
      data := (fs.nodes idx).data.copy 0 data 0 (min size fsMaxFileSize), size := min size fsMaxFileSize }) := by
  have cut : (if size > fsMaxFileSize then fsMaxFileSize else size) = min size fsMaxFileSize := by
    split <;> omega
  simp only [write, resolved, file, ne_eq, not_true_eq_false, ↓reduceIte, cut]

theorem append_eq {path : CString} {idx : Index} (resolved : fs.resolveFullPath path = .ok idx)
    (file : (fs.nodes idx).type = .file) (data : Bytes) (size : Nat) :
    fs.append path data size = (((min size (fsMaxFileSize - (fs.nodes idx).size) : Nat) : Int),
      fs.setNode idx { fs.nodes idx with
        data := (fs.nodes idx).data.copy (fs.nodes idx).size data 0 (min size (fsMaxFileSize - (fs.nodes idx).size))
        size := (fs.nodes idx).size + min size (fsMaxFileSize - (fs.nodes idx).size) }) := by
  have cut : (if size > fsMaxFileSize - (fs.nodes idx).size then fsMaxFileSize - (fs.nodes idx).size else size) =
      min size (fsMaxFileSize - (fs.nodes idx).size) := by
    split <;> omega
  simp only [append, resolved, file, ne_eq, not_true_eq_false, ↓reduceIte, cut]

/-- Everything a call can do, with what it has looked at before. -/
inductive Outcome (fs : RamFs) : Call → Int × RamFs → Prop
  | failed (error : FsError) : Outcome fs call (error.code, fs)
  | created (node : FsNode) : call = .createFile path ∨ call = .createDir path →
    fs.resolvePath path = .ok (node.parentIdx, node.name) → node.name ≠ [] →
    fs.findNodeInDir node.parentIdx node.name = none → (fs.nodes idx).used = false → node.used = true → node.size = 0 →
    Outcome fs call (0, fs.setNode idx node)
  | removed : fs.resolveFullPath path = .ok idx → idx ≠ 0 → ¬ ((fs.nodes idx).type = .dir ∧ fs.hasChild idx = true) →
    Outcome fs (.remove path) (0, fs.setNode idx FsNode.zero)
  | written : fs.resolveFullPath path = .ok idx → (fs.nodes idx).type = .file →
    Outcome fs (.write path data size) (((min size fsMaxFileSize : Nat) : Int), fs.setNode idx { fs.nodes idx with
      data := (fs.nodes idx).data.copy 0 data 0 (min size fsMaxFileSize), size := min size fsMaxFileSize })
  | appended : fs.resolveFullPath path = .ok idx → (fs.nodes idx).type = .file →
    Outcome fs (.append path data size) (((min size (fsMaxFileSize - (fs.nodes idx).size) : Nat) : Int),
      fs.setNode idx { fs.nodes idx with
        data := (fs.nodes idx).data.copy (fs.nodes idx).size data 0 (min size (fsMaxFileSize - (fs.nodes idx).size))
        size := (fs.nodes idx).size + min size (fsMaxFileSize - (fs.nodes idx).size) })
  | moved (cwd : List Byte) : idx = 0 ∨ fs.resolveFullPath path = .ok idx ∧ (fs.nodes idx).type = .dir →
    Outcome fs (.changeDir path) (0, { fs with cwdIdx := idx, cwd })
  | cleared : Outcome fs .clearCache (0, fs.clearCache)

theorem outcome_createNode {call : Call} {path : CString} (creates : call = .createFile path ∨ call = .createDir path)
    {fill : FsNode → List Byte → Index → FsNode} (filled : ∀ old name parentIdx, (fill old name parentIdx).name = name ∧
      (fill old name parentIdx).parentIdx = parentIdx ∧ (fill old name parentIdx).used = true ∧
      (fill old name parentIdx).size = 0) : Outcome fs call (fs.createNode path fill) := by
  rcases createNode_cases fs path fill with ⟨error, failed⟩ | ⟨idx, name, parentIdx, created⟩
  · rw [failed]
    exact .failed error
  · obtain ⟨named, child, used, empty⟩ := filled (fs.nodes idx) name parentIdx
    rw [created.result]
    refine .created _ creates ?_ ?_ ?_ created.free used empty
    · rw [named, child]
      exact created.resolved
    · rw [named]
      exact created.nonempty
    · rw [named, child]
      exact created.fresh

theorem Call.outcome {call : Call} {result : Int × RamFs} (ran : call.run fs = some result) : Outcome fs call result := by
  cases call with
  | createFile path =>
    obtain rfl := Option.some.inj ran
    exact outcome_createNode (.inl rfl) fun _ _ _ => ⟨rfl, rfl, rfl, rfl⟩
  | createDir path =>
    obtain rfl := Option.some.inj ran
    exact outcome_createNode (.inr rfl) fun _ _ _ => ⟨rfl, rfl, rfl, rfl⟩
  | remove path =>
    obtain rfl := Option.some.inj ran
    rcases remove_cases fs path with ⟨error, failed⟩ | ⟨idx, resolved, inner, leaf, result⟩
    · rw [failed]
      exact .failed error
    · rw [result]
      exact .removed resolved inner leaf
  | write path data size =>
    obtain rfl := Option.some.inj ran
    cases resolved : fs.resolveFullPath path with
    | error _ =>
      simp only [RamFs.write, resolved]
      exact .failed _
    | ok idx =>
      by_cases file : (fs.nodes idx).type = .file
      · rw [write_eq resolved file]
        exact .written resolved file
      · simp only [RamFs.write, resolved, ne_eq, file, not_false_eq_true, ↓reduceIte]
        exact .failed _
  | append path data size =>
    obtain rfl := Option.some.inj ran
    cases resolved : fs.resolveFullPath path with
    | error _ =>
      simp only [RamFs.append, resolved]
      exact .failed _
    | ok idx =>
      by_cases file : (fs.nodes idx).type = .file
      · rw [append_eq resolved file]
        exact .appended resolved file
      · simp only [RamFs.append, resolved, ne_eq, file, not_false_eq_true, ↓reduceIte]
        exact .failed _
  | changeDir path =>
    obtain ⟨code, after⟩ := result
    rcases changeDir_cases ran with ⟨error, rfl, rfl⟩ | ⟨idx, cwd, rfl, rfl, place⟩
    · exact .failed error
    · exact .moved cwd place
  | clearCache =>
    obtain rfl := Option.some.inj ran
    exact .cleared

theorem Rooted.setCwd (rooted : Rooted fs) {idx : Index} (dir : fs.Dir idx) (cwd : List Byte) :
    Rooted { fs with cwdIdx := idx, cwd } :=
  @Rooted.congr fs { fs with cwdIdx := idx, cwd } rooted (fun _ => rfl) (fun _ => rfl) (fun _ => rfl) dir

theorem Rooted.clearCache (rooted : Rooted fs) : Rooted fs.clearCache := by
  have root : fs.clearCache.nodes 0 = fs.nodes 0 := rfl
  have used (i : Index) (isUsed : (fs.clearCache.nodes i).used = true) : i = 0 := by
    by_contra other
    rw [RamFs.clearCache] at isUsed
    simp only [other, ↓reduceIte] at isUsed
    cases isUsed
  refine ⟨⟨rooted.root, ?_, ?_, rooted.root⟩, rooted.rootParent⟩
  · intro i isUsed
    rw [used i isUsed, RamFs.up, root]
    have top : (fs.nodes 0).parentIdx = 0 := rooted.rootParent
    rw [top]
    exact rooted.root
  · intro i isUsed
    exact ⟨0, used i isUsed⟩

/-- A removal that succeeds takes a leaf out of the tree. -/
theorem Rooted.leaf (rooted : Rooted fs) {idx : Index} (kept : ¬ ((fs.nodes idx).type = .dir ∧ fs.hasChild idx = true))
    (i : Index) (isUsed : (fs.nodes i).used = true) : fs.up i ≠ idx := by
  intro child
  apply kept
  refine ⟨?_, hasChild_iff.mpr ⟨i, isUsed, child⟩⟩
  rw [← child]
  exact (rooted.parents i isUsed).2

end Calls

/-- The call neither removes the current directory nor overruns `cwd`. -/
def Call.Keeps (fs : RamFs) : Call → Prop
  | remove path => fs.resolveFullPath path = .ok fs.cwdIdx → fs.cwdIdx = 0 ∨ fs.hasChild fs.cwdIdx = true
  | call => call.Fits fs

variable {fs after : RamFs} {code : Int}

theorem Call.Keeps.fits {call : Call} (keeps : call.Keeps fs) : call.Fits fs := by
  cases call with
  | changeDir path => exact keeps
  | _ => trivial

theorem Rooted.run (rooted : Rooted fs) {call : Call} (keeps : call.Keeps fs)
    (result : call.run fs = some (code, after)) : Rooted after := by
  cases call.outcome result with
  | failed => exact rooted
  | created node _ resolved _ _ free => exact rooted.insert free (rooted.resolvePath_dir resolved)
  | removed resolved inner kept =>
    refine rooted.erase inner ?_ (rooted.leaf kept)
    rintro rfl
    rcases keeps resolved with root | child
    · exact inner root
    · exact kept ⟨rooted.cwd.2, child⟩
  | written | appended => exact rooted.rewrite rfl rfl rfl
  | moved cwd place =>
    rcases place with rfl | ⟨resolved, dir⟩
    · exact rooted.setCwd rooted.root cwd
    · exact rooted.setCwd ⟨rooted.resolveFullPath_used resolved, dir⟩ cwd
  | cleared => exact rooted.clearCache

/-- Without that, the current directory is an unused node. -/
theorem keeps_of_tree {call : Call} (result : call.run fs = some (code, after)) (tree : Tree after) : call.Keeps fs := by
  cases call with
  | remove path =>
    intro resolved
    by_contra lost
    rw [not_or] at lost
    have removed : fs.remove path = (0, fs.setNode fs.cwdIdx FsNode.zero) := by
      rw [RamFs.remove, resolved]
      simp only [lost.1, ↓reduceIte, lost.2, Bool.false_eq_true, and_false]
    rw [Call.run, removed] at result
    obtain rfl := congrArg Prod.snd (Option.some.inj result)
    have used := tree.cwd.1
    rw [setNode_cwdIdx, setNode_self] at used
    cases used
  | changeDir path => exact Call.fits_iff.mpr ⟨code, after, result⟩
  | _ => trivial

/-- Any call that stays inside `cwd`. -/
def Step (before after : RamFs) : Prop := ∃ call : Call, call.Fits before ∧ ∃ code, call.run before = some (code, after)

/-- A call that does not remove the current directory either. -/
def KeepingStep (before after : RamFs) : Prop :=
  ∃ call : Call, call.Keeps before ∧ ∃ code, call.run before = some (code, after)

theorem reachable_of_keeping (run : Reachable KeepingStep init fs) : Reachable Step init fs := by
  induction run with
  | refl => exact .refl
  | tail _ step ih =>
    obtain ⟨call, keeps, result⟩ := step
    exact ih.tail ⟨call, keeps.fits, result⟩

theorem Rooted.of_reachable (run : Reachable KeepingStep init fs) : Rooted fs :=
  run.invariant rooted_init fun _ _ rooted ⟨_, keeps, _, result⟩ => rooted.run keeps result

/-- As long as no call removes the current directory or overruns `cwd` the
nodes are a tree with the current directory in it, and exactly such calls keep
it. -/
theorem ram_tree_kept (run : Reachable KeepingStep init fs) :
    Tree fs ∧ ∀ call : Call, (∃ code after, call.run fs = some (code, after) ∧ Tree after) ↔ call.Keeps fs := by
  have rooted := Rooted.of_reachable run
  refine ⟨rooted.toTree, fun call => ⟨?_, ?_⟩⟩
  · rintro ⟨code, after, result, tree⟩
    exact keeps_of_tree result tree
  · intro keeps
    obtain ⟨code, after, result⟩ := Call.fits_iff.mp keeps.fits
    exact ⟨code, after, result, (rooted.run keeps result).toTree⟩

/-- Create a directory and go there. -/
def enter (fs : RamFs) (path : CString) : Option RamFs := ((fs.createDir path).2.changeDir path).map Prod.snd

theorem enter_reachable {paths : List CString} (run : Reachable KeepingStep init fs)
    (entered : paths.foldlM enter fs = some after) : Reachable KeepingStep init after := by
  induction paths generalizing fs with
  | nil =>
    cases entered
    exact run
  | cons path rest ih =>
    rw [List.foldlM_cons] at entered
    obtain ⟨next, first, others⟩ := Option.bind_eq_some_iff.mp entered
    obtain ⟨⟨code, last⟩, changed, rfl⟩ := Option.map_eq_some_iff.mp first
    have fits : Call.Fits (fs.createDir path).2 (.changeDir path) := Call.fits_iff.mpr ⟨code, last, changed⟩
    exact ih ((run.tail ⟨.createDir path, trivial, _, rfl⟩).tail ⟨.changeDir path, fits, code, changed⟩) others

/-- The path `a`. -/
def letterA : CString := ⟨[97], by decide⟩

/-- In a new directory that is the current one. -/
def inside : RamFs := { (init.createDir letterA).2 with cwdIdx := 1, cwd := [slash, 97] }

theorem inside_entered : [letterA].foldlM enter init = some inside := rfl

theorem inside_reachable : Reachable KeepingStep init inside := enter_reachable .refl inside_entered

theorem ram_tree_kept_inside : Reachable KeepingStep init inside ∧ inside.cwdIdx = 1 ∧ Tree inside ∧
    ∀ call : Call, (∃ code after, call.run inside = some (code, after) ∧ Tree after) ↔ call.Keeps inside :=
  ⟨inside_reachable, by decide +kernel, ram_tree_kept inside_reachable⟩

/-- `.` names the current directory, so it can be removed from inside. -/
theorem ram_tree_broken_by_remove : ¬ ∀ fs, Reachable Step init fs → Tree fs := by
  intro holds
  have run : Reachable Step init (inside.remove ⟨[dot], by decide⟩).2 :=
    (reachable_of_keeping inside_reachable).tail ⟨.remove ⟨[dot], by decide⟩, trivial, _, rfl⟩
  have cwd := (holds _ run).cwd
  revert cwd
  decide +kernel

/-- Four names that fill `cwd` but for one byte. -/
def longNames : List CString :=
  [CString.ofBytes (List.replicate 31 97), CString.ofBytes (List.replicate 31 98),
    CString.ofBytes (List.replicate 31 99), CString.ofBytes (List.replicate 30 100)]

/-- The path `EsJY`. -/
def fifthName : CString := ⟨[69, 115, 74, 89], by decide⟩

/-- The name of a directory below those four goes into the bytes behind `cwd`,
where the linker has put `cwd_idx`. -/
theorem cwd_overrun : ∃ fs idx, Reachable KeepingStep init fs ∧ (Call.changeDir fifthName).run fs = none ∧
    fs.resolveFullPath fifthName = .ok idx ∧ (spell (fs.parts fsMaxPathDepth idx)).drop fsMaxPath = fifthName.bytes := by
  have check : (longNames.foldlM enter init).any (fun fs =>
      ((fs.createDir fifthName).2.changeDir fifthName).isNone &&
        decide ((fs.createDir fifthName).2.resolveFullPath fifthName = .ok 5) &&
        decide ((spell ((fs.createDir fifthName).2.parts fsMaxPathDepth 5)).drop fsMaxPath = fifthName.bytes)) = true := by
    decide +kernel
  obtain ⟨fs, entered, check⟩ := (Option.any_eq_true _ _).mp check
  simp only [Bool.and_eq_true, Option.isNone_iff_eq_none, decide_eq_true_eq] at check
  obtain ⟨⟨overrun, resolved⟩, behind⟩ := check
  exact ⟨_, 5, (enter_reachable .refl entered).tail ⟨.createDir fifthName, trivial, _, rfl⟩, overrun, resolved, behind⟩

end MexOS.Fs.RamFs
