import MexOS.Fs.RamContent

/-! The names of the nodes in memory, in every state that any calls lead to. -/

namespace MexOS.Fs.RamFs

open MexOS.Machine

/-- What fits into a buffer for names and can be a component of a path. -/
structure Component (name : List Byte) : Prop where
  nonempty : name ≠ []
  short : name.length < fsMaxName
  unslashed : slash ∉ name
  terminated : (0 : Byte) ∉ name

/-- Used nodes have proper names, and no two in the same directory have the same
one; the root has no part in it. -/
structure Labelled (fs : RamFs) : Prop where
  component : ∀ i, (fs.nodes i).used = true → i ≠ 0 → Component (fs.nodes i).name
  unique : ∀ i j, (fs.nodes i).used = true → (fs.nodes j).used = true → i ≠ 0 → j ≠ 0 → fs.up i = fs.up j →
    (fs.nodes i).name = (fs.nodes j).name → i = j

section Strings

variable {name path dirPart namePart : List Byte}

theorem lastSlash_none (missing : lastSlash path = none) : slash ∉ path := by
  induction path with
  | nil => simp
  | cons byte rest ih =>
    rw [lastSlash] at missing
    split at missing
    · cases missing
    · next further =>
      split at missing
      · cases missing
      · next other =>
        rw [List.mem_cons, not_or]
        exact ⟨Ne.symm other, ih further⟩

theorem lastSlash_some (found : lastSlash path = some (dirPart, namePart)) :
    path = dirPart ++ slash :: namePart ∧ slash ∉ namePart := by
  induction path generalizing dirPart with
  | nil => cases found
  | cons byte rest ih =>
    rw [lastSlash] at found
    split at found
    · next later =>
      cases found
      obtain ⟨shape, clean⟩ := ih later
      exact ⟨by rw [shape, List.cons_append], clean⟩
    · next last =>
      split at found
      · next here =>
        cases found
        exact ⟨by rw [here, List.nil_append], lastSlash_none last⟩
      · cases found

theorem mem_cutName {byte : Byte} (member : byte ∈ cutName name) : byte ∈ name := List.mem_of_mem_take member

theorem length_cutName (name : List Byte) : (cutName name).length < fsMaxName := by
  rw [cutName, List.length_take, fsMaxName]
  omega

theorem Component.cutName_eq (component : Component name) : cutName name = name := by
  have short := component.short
  rw [fsMaxName] at short
  rw [cutName, fsMaxName]
  exact List.take_of_length_le (by omega)

end Strings

variable {fs : RamFs} {idx : Index} {path : CString} {basename : List Byte}

/-- The base name of a path is a component, unless it is empty. -/
theorem resolvePath_component (resolved : fs.resolvePath path = .ok (idx, basename)) (nonempty : basename ≠ []) :
    Component basename := by
  have terminated := path.terminated
  have inBuf (byte : Byte) (member : byte ∈ path.bytes.take (fsMaxPath - 1)) : byte ∈ path.bytes :=
    List.mem_of_mem_take member
  unfold resolvePath at resolved
  split at resolved
  · cases resolved
  · dsimp only at resolved
    have inPath (byte : Byte) (member : byte ∈ if (path.bytes.take (fsMaxPath - 1)).head? = some slash then
        (path.bytes.take (fsMaxPath - 1)).tail else path.bytes.take (fsMaxPath - 1)) : byte ∈ path.bytes := by
      split at member
      · exact inBuf byte (List.mem_of_mem_tail member)
      · exact inBuf byte member
    split at resolved
    · next last =>
      cases resolved
      refine ⟨nonempty, length_cutName _, fun member => lastSlash_none last (mem_cutName member), ?_⟩
      exact fun member => terminated (inPath 0 (mem_cutName member))
    · next dirPart namePart last =>
      split at resolved
      · cases resolved
      · cases resolved
        obtain ⟨shape, clean⟩ := lastSlash_some last
        refine ⟨nonempty, length_cutName _, fun member => clean (mem_cutName member), ?_⟩
        intro member
        apply terminated
        apply inPath
        rw [shape]
        exact List.mem_append_right _ (List.mem_cons_of_mem _ (mem_cutName member))

section Preservation

variable {after : RamFs} {node : FsNode}

/-- Every node that is used afterwards was used before with the same name and
parent. -/
theorem Labelled.shrink (labelled : Labelled fs)
    (kept : ∀ i, (after.nodes i).used = true → (fs.nodes i).used = true)
    (name : ∀ i, (after.nodes i).used = true → (after.nodes i).name = (fs.nodes i).name ∧ after.up i = fs.up i) :
    Labelled after := by
  constructor
  · intro i used inner
    rw [(name i used).1]
    exact labelled.component i (kept i used) inner
  · intro i j iUsed jUsed iInner jInner sameParent sameName
    rw [(name i iUsed).2, (name j jUsed).2] at sameParent
    rw [(name i iUsed).1, (name j jUsed).1] at sameName
    exact labelled.unique i j (kept i iUsed) (kept j jUsed) iInner jInner sameParent sameName

/-- A new name that no other child of the directory has. -/
theorem Labelled.insert (labelled : Labelled fs) (component : Component node.name)
    (fresh : fs.findNodeInDir node.parentIdx node.name = none) : Labelled (fs.setNode idx node) := by
  have clash (i : Index) (other : i ≠ idx) (isUsed : ((fs.setNode idx node).nodes i).used = true)
      (sameParent : (fs.setNode idx node).up i = node.parentIdx)
      (sameName : ((fs.setNode idx node).nodes i).name = node.name) : False := by
    rw [up, setNode_other fs node other] at sameParent
    rw [setNode_other fs node other] at isUsed sameName
    exact findNodeInDir_none fresh isUsed sameParent sameName
  constructor
  · intro i isUsed inner
    by_cases here : i = idx
    · subst here
      rw [setNode_self]
      exact component
    · rw [setNode_other fs node here] at isUsed ⊢
      exact labelled.component i isUsed inner
  · intro i j iUsed jUsed iInner jInner sameParent sameName
    by_cases iNew : i = idx
    · by_cases jNew : j = idx
      · rw [iNew, jNew]
      · subst iNew
        rw [up, setNode_self] at sameParent
        rw [setNode_self] at sameName
        exact (clash j jNew jUsed sameParent.symm sameName.symm).elim
    · by_cases jNew : j = idx
      · subst jNew
        rw [up, up, setNode_self] at sameParent
        rw [setNode_self] at sameName
        exact (clash i iNew iUsed sameParent sameName).elim
      · rw [setNode_other fs node iNew] at iUsed sameName
        rw [setNode_other fs node jNew] at jUsed sameName
        rw [up, up, setNode_other fs node iNew, setNode_other fs node jNew] at sameParent
        exact labelled.unique i j iUsed jUsed iInner jInner sameParent sameName

/-- The slot is emptied, or keeps its name and its parent. -/
theorem Labelled.setNode (labelled : Labelled fs) (kept : node.used = true →
    (fs.nodes idx).used = true ∧ node.name = (fs.nodes idx).name ∧ node.parentIdx = fs.up idx) :
    Labelled (fs.setNode idx node) := by
  have same (i : Index) (isUsed : ((fs.setNode idx node).nodes i).used = true) : (fs.nodes i).used = true ∧
      ((fs.setNode idx node).nodes i).name = (fs.nodes i).name ∧ (fs.setNode idx node).up i = fs.up i := by
    by_cases here : i = idx
    · subst here
      rw [setNode_self] at isUsed
      rw [up, setNode_self]
      exact kept isUsed
    · rw [setNode_other fs node here] at isUsed
      rw [up, setNode_other fs node here]
      exact ⟨isUsed, rfl, rfl⟩
  exact labelled.shrink (fun i isUsed => (same i isUsed).1) fun i isUsed => (same i isUsed).2

end Preservation

theorem Labelled.run (labelled : Labelled fs) {call : Call} (result : call.run fs = some (code, after)) :
    Labelled after := by
  cases call.outcome result with
  | failed => exact labelled
  | created node _ resolved nonempty fresh => exact labelled.insert (resolvePath_component resolved nonempty) fresh
  | removed => exact labelled.setNode fun used => by cases used
  | written | appended => exact labelled.setNode fun used => ⟨used, rfl, rfl⟩
  | moved => exact ⟨labelled.component, labelled.unique⟩
  | cleared =>
    have kept (i : Index) (isUsed : (fs.clearCache.nodes i).used = true) : fs.clearCache.nodes i = fs.nodes i := by
      by_cases root : i = 0
      · rw [root]
        rfl
      · simp only [RamFs.clearCache, root, ↓reduceIte] at isUsed
        cases isUsed
    refine labelled.shrink ?_ ?_
    · intro i isUsed
      rwa [kept i isUsed] at isUsed
    · intro i isUsed
      rw [up, kept i isUsed]
      exact ⟨rfl, rfl⟩

theorem labelled_init : Labelled init := by
  have root (i : Index) (isUsed : (init.nodes i).used = true) : i = 0 := by
    by_contra other
    simp only [init, Function.update_of_ne other] at isUsed
    cases isUsed
  constructor
  · exact fun i isUsed inner => absurd (root i isUsed) inner
  · exact fun i j iUsed jUsed _ _ _ _ => (root i iUsed).trans (root j jUsed).symm

theorem Labelled.of_reachable (run : Reachable Step init fs) : Labelled fs :=
  run.invariant labelled_init fun _ _ labelled ⟨_, _, _, result⟩ => labelled.run result

/-- Names tell the nodes of a directory apart, they are those that a path can
spell, and no file is longer than its array. -/
structure NamesUnique (fs : RamFs) : Prop where
  unique : ∀ i j, i ≠ j → i ≠ 0 → j ≠ 0 → (fs.nodes i).used = true → (fs.nodes j).used = true →
    ¬ ((fs.nodes i).parentIdx = (fs.nodes j).parentIdx ∧ (fs.nodes i).name = (fs.nodes j).name)
  formed : ∀ i, i ≠ 0 → (fs.nodes i).used = true →
    (fs.nodes i).name ≠ [] ∧ (fs.nodes i).name.length ≤ 31 ∧ slash ∉ (fs.nodes i).name
  bounded : ∀ i, (fs.nodes i).used = true → (fs.nodes i).size ≤ fsMaxFileSize

theorem namesUnique_of_reachable (run : Reachable Step init fs) : NamesUnique fs := by
  have labelled := Labelled.of_reachable run
  refine ⟨?_, ?_, fun i _ => Bounded.of_reachable run i⟩
  · rintro i j other iInner jInner iUsed jUsed ⟨sameParent, sameName⟩
    exact other (labelled.unique i j iUsed jUsed iInner jInner sameParent sameName)
  · intro i inner isUsed
    have component := labelled.component i isUsed inner
    exact ⟨component.nonempty, Nat.le_of_lt_succ component.short, component.unslashed⟩

/-- Whatever the calls that stay inside `cwd`, also when the current directory
is removed and its slot is used again; and exactly such calls keep it so. -/
theorem ram_names_unique (run : Reachable Step init fs) :
    NamesUnique fs ∧
    ∀ call : Call, (∃ code after, call.run fs = some (code, after) ∧ NamesUnique after) ↔ call.Fits fs := by
  refine ⟨namesUnique_of_reachable run, fun call => ?_⟩
  rw [Call.fits_iff]
  constructor
  · rintro ⟨code, after, result, _⟩
    exact ⟨code, after, result⟩
  · rintro ⟨code, after, result⟩
    have fits : call.Fits fs := Call.fits_iff.mpr ⟨code, after, result⟩
    exact ⟨code, after, result, namesUnique_of_reachable (run.tail ⟨call, fits, code, result⟩)⟩

/-- The directory `a` is removed while it is the current one, and its slot gets
a file. -/
def recycled : RamFs :=
  ((inside.remove ⟨[slash, 97], by decide⟩).2.createFile letterA).2.createFile ⟨[98], by decide⟩ |>.2

theorem recycled_reachable : Reachable Step init recycled :=
  (((reachable_of_keeping inside_reachable).tail ⟨.remove ⟨[slash, 97], by decide⟩, trivial, _, rfl⟩).tail
    ⟨.createFile letterA, trivial, _, rfl⟩).tail ⟨.createFile ⟨[98], by decide⟩, trivial, _, rfl⟩

theorem ram_names_unique_recycled : (recycled.nodes 1).used = true ∧ (recycled.nodes 2).used = true ∧
    (recycled.nodes 1).parentIdx = recycled.cwdIdx ∧ (recycled.nodes 2).parentIdx = recycled.cwdIdx ∧
    recycled.cwdIdx = 1 ∧ (recycled.nodes 1).name ≠ (recycled.nodes 2).name := by
  have used : (recycled.nodes 1).used = true ∧ (recycled.nodes 2).used = true := by decide +kernel
  have current : recycled.cwdIdx = 1 := by decide +kernel
  have parents : (recycled.nodes 1).parentIdx = 1 ∧ (recycled.nodes 2).parentIdx = 1 := by decide +kernel
  have unique := (ram_names_unique recycled_reachable).1.unique 1 2 (by decide) (by decide) (by decide) used.1 used.2
  rw [current]
  exact ⟨used.1, used.2, parents.1, parents.2, rfl, fun same => unique ⟨parents.1.trans parents.2.symm, same⟩⟩

/-- The last name goes over the end of `cwd`. -/
theorem ram_names_not_kept : ¬ ∀ fs, Reachable Step init fs → ∀ call : Call,
    ∃ code after, call.run fs = some (code, after) ∧ NamesUnique after := by
  intro holds
  obtain ⟨fs, idx, run, overrun, _⟩ := cwd_overrun
  obtain ⟨code, after, result, _⟩ := holds fs (reachable_of_keeping run) (.changeDir fifthName)
  rw [overrun] at result
  cases result

end MexOS.Fs.RamFs
