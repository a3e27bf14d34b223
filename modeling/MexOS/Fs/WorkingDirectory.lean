import MexOS.Fs.RamNames

/-! The string that `fs_get_cwd` returns, against the directory it stands for. -/

namespace MexOS.Fs.RamFs

open MexOS.Machine

/-- The string ends inside its array and names the current directory. -/
def CwdRight (fs : RamFs) : Prop := fs.cwd.length < fsMaxPath ∧ fs.resolveFullPath fs.getCwd = .ok fs.cwdIdx

instance (fs : RamFs) : Decidable fs.CwdRight := inferInstanceAs (Decidable (_ ∧ _))

/-- The bytes of the names on the way up, with a slash before each. -/
def nameBytes (fs : RamFs) : Nat → Index → Nat
  | 0, _ => 0
  | steps + 1, i => if i = 0 then 0 else fs.nameBytes steps (fs.up i) + ((fs.nodes i).name.length + 1)

section Walking

variable {fs : RamFs} {current idx : Index} {name : List Byte}

theorem walk_append (current : Index) (left right : List (List Byte)) :
    fs.walk current (left ++ right) =
      match fs.walk current left with
      | .error error => .error error
      | .ok idx => fs.walk idx right := by
  induction left generalizing current with
  | nil => rfl
  | cons token rest ih =>
    by_cases proper : Proper (cutName token)
    · rw [List.cons_append, walk_proper proper, walk_proper proper]
      cases fs.findNodeInDir current (cutName token) with
      | none => rfl
      | some idx =>
        dsimp only
        split
        · rfl
        · exact ih idx
    · simp only [List.cons_append, walk, ih]
      split
      · rfl
      · split
        · rfl
        · split
          · rfl
          · next nonempty single double => exact absurd ⟨nonempty, single, double⟩ proper

theorem cutName_nil : cutName [] = [] := rfl

/-- A leading slash makes an empty component, which is skipped. -/
theorem walk_splitOn_slash (current : Index) (path : List Byte) :
    fs.walk current ((slash :: path).splitOn slash) = fs.walk current (path.splitOn slash) := by
  have parts := List.splitOn_append_cons_self [] path (a := slash)
  rw [List.nil_append, List.splitOn_nil] at parts
  rw [parts]
  simp only [List.singleton_append, walk, cutName_nil, ↓reduceIte]

theorem lastSlash_eq_none (clean : slash ∉ name) : lastSlash name = none := by
  induction name with
  | nil => rfl
  | cons byte rest ih =>
    rw [List.mem_cons, not_or] at clean
    rw [lastSlash, ih clean.2, if_neg (Ne.symm clean.1)]

theorem lastSlash_append (path : List Byte) (clean : slash ∉ name) :
    lastSlash (path ++ slash :: name) = some (path, name) := by
  induction path with
  | nil => rw [List.nil_append, lastSlash, lastSlash_eq_none clean, if_pos rfl]
  | cons byte rest ih => rw [List.cons_append, lastSlash, ih]

/-- An absolute path is walked from the root up to its last slash. -/
theorem resolvePath_absolute {path : CString} {dirPart : List Byte} (shape : path.bytes = dirPart ++ slash :: name)
    (absolute : dirPart = [] ∨ dirPart.head? = some slash) (component : Component name)
    (fits : path.bytes.length < fsMaxPath) :
    fs.resolvePath path =
      match fs.walk 0 (dirPart.splitOn slash) with
      | .error error => .error error
      | .ok idx => .ok (idx, name) := by
  have whole : path.bytes.take (fsMaxPath - 1) = path.bytes := List.take_of_length_le (by rw [fsMaxPath] at *; omega)
  have nonempty : path.bytes ≠ [] := by
    rw [shape]
    exact List.append_ne_nil_of_right_ne_nil _ (List.cons_ne_nil _ _)
  rw [resolvePath, if_neg nonempty, whole, shape]
  rcases absolute with rfl | absolute
  · simp only [List.nil_append, List.head?_cons, ↓reduceIte, List.tail_cons, lastSlash_eq_none component.unslashed,
      component.cutName_eq, List.splitOn_nil, walk, cutName_nil]
  · obtain ⟨tail, rfl⟩ := List.head?_eq_some_iff.mp absolute
    rw [walk_splitOn_slash]
    cases walked : fs.walk 0 (tail.splitOn slash) with
    | error error =>
      simp only [List.cons_append, List.head?_cons, ↓reduceIte, List.tail_cons,
        lastSlash_append tail component.unslashed, walked]
    | ok idx =>
      simp only [List.cons_append, List.head?_cons, ↓reduceIte, List.tail_cons,
        lastSlash_append tail component.unslashed, walked, component.cutName_eq]

theorem resolveFullPath_proper {path : CString} (other : path.bytes ≠ [slash])
    (resolved : fs.resolvePath path = .ok (current, name)) (proper : Proper name) :
    fs.resolveFullPath path =
      match fs.findNodeInDir current name with
      | none => .error .notFound
      | some idx => .ok idx := by
  have nonempty : path.bytes ≠ [] := by
    intro empty
    rw [resolvePath, if_pos empty] at resolved
    cases resolved
  rw [resolveFullPath, if_neg nonempty, if_neg other, resolved]
  cases found : fs.findNodeInDir current name with
  | none => simp only [proper.1, proper.2.1, proper.2.2, ↓reduceIte, found]
  | some idx => simp only [proper.1, proper.2.1, proper.2.2, ↓reduceIte, found]

end Walking
section Spelling

theorem spell_cons (part : List Byte) (rest : List (List Byte)) : spell (part :: rest) = spell rest ++ slash :: part := by
  simp [spell]

theorem spell_absolute (parts : List (List Byte)) : spell parts = [] ∨ (spell parts).head? = some slash := by
  induction parts with
  | nil => exact .inl rfl
  | cons part rest ih =>
    right
    rw [spell_cons]
    rcases ih with empty | absolute
    · rw [empty]
      rfl
    · rw [List.head?_append, absolute]
      rfl

theorem spell_terminated {parts : List (List Byte)} (each : ∀ part ∈ parts, Component part) :
    (0 : Byte) ∉ spell parts := by
  induction parts with
  | nil => exact List.not_mem_nil
  | cons part rest ih =>
    obtain ⟨first, others⟩ := List.forall_mem_cons.mp each
    rw [spell_cons, List.mem_append, List.mem_cons]
    rintro (inside | same | inside)
    · exact ih others inside
    · exact absurd same (by decide)
    · exact first.terminated inside

theorem splitOn_spell {part : List Byte} (component : Component part) (rest : List (List Byte)) :
    (spell (part :: rest)).splitOn slash = (spell rest).splitOn slash ++ [part] := by
  rw [spell_cons, List.splitOn_append_cons_self, List.splitOn_eq_singleton component.unslashed]

end Spelling

variable {fs : RamFs} {idx : Index}

theorem Sound.climb_root (sound : Sound fs) (steps : Nat) : fs.climb steps 0 = 0 := by
  induction steps with
  | zero => rfl
  | succ steps ih => rw [climb, sound.rootParent, ih]

theorem Sound.climb_le (sound : Sound fs) {few many : Nat} (le : few ≤ many) (top : fs.climb few idx = 0) :
    fs.climb many idx = 0 := by
  induction few generalizing many idx with
  | zero =>
    have here : idx = 0 := top
    rw [here, sound.climb_root]
  | succ few ih =>
    cases many with
    | zero => cases le
    | succ many =>
      rw [climb] at top ⊢
      exact ih (Nat.le_of_succ_le_succ le) top

/-- The loop has found a name that is a component, and goes on above it. -/
theorem Sound.parts_succ (sound : Sound fs) (used : (fs.nodes idx).used = true) (inner : idx ≠ 0) (turns : Nat) :
    fs.parts (turns + 1) idx = (fs.nodes idx).name :: fs.parts turns (fs.up idx) := by
  rw [parts, if_pos inner, (sound.named.component idx used inner).cutName_eq]
  rfl

theorem Sound.proper (sound : Sound fs) (used : (fs.nodes idx).used = true) (inner : idx ≠ 0) (plain : ¬ fs.Dotted idx) :
    Proper (fs.nodes idx).name :=
  ⟨(sound.named.component idx used inner).nonempty, not_or.mp plain⟩

theorem Sound.parts_proper (sound : Sound fs) (used : (fs.nodes idx).used = true) (plain : ¬ fs.Dotted idx)
    (turns : Nat) : ∀ part ∈ fs.parts turns idx, Component part ∧ Proper part := by
  induction turns generalizing idx with
  | zero => exact List.forall_mem_nil _
  | succ turns ih =>
    by_cases inner : idx = 0
    · rw [inner, parts_root]
      exact List.forall_mem_nil _
    · rw [sound.parts_succ used inner, List.forall_mem_cons]
      refine ⟨⟨sound.named.component idx used inner, sound.proper used inner plain⟩, ?_⟩
      exact ih (sound.parents idx used).1 (sound.named.parents idx used)

theorem Sound.length_spell (sound : Sound fs) (used : (fs.nodes idx).used = true) (turns : Nat) :
    (spell (fs.parts turns idx)).length = fs.nameBytes turns idx := by
  induction turns generalizing idx with
  | zero => rfl
  | succ turns ih =>
    by_cases inner : idx = 0
    · rw [inner, parts_root]
      rfl
    · rw [sound.parts_succ used inner, spell_cons, List.length_append, List.length_cons, nameBytes, if_neg inner,
        ih (sound.parents idx used).1]

theorem length_parts_le (fs : RamFs) (turns : Nat) (idx : Index) : (fs.parts turns idx).length ≤ turns := by
  induction turns generalizing idx with
  | zero => exact Nat.le_refl 0
  | succ turns ih =>
    rw [parts]
    split
    · exact Nat.succ_le_succ (ih _)
    · exact Nat.zero_le _

/-- A name leads from the parent back to the node. -/
theorem Sound.find_self (sound : Sound fs) (used : (fs.nodes idx).used = true) (inner : idx ≠ 0) :
    fs.findNodeInDir (fs.up idx) (fs.nodes idx).name = some idx := by
  cases found : fs.findNodeInDir (fs.up idx) (fs.nodes idx).name with
  | none => exact absurd rfl (findNodeInDir_none found used rfl)
  | some other =>
    obtain ⟨otherUsed, sameParent, sameName⟩ := findNodeInDir_some found
    have otherInner : other ≠ 0 := by
      rintro rfl
      have clean := (sound.named.component idx used inner).unslashed
      rw [← sameName, sound.named.rootName] at clean
      exact clean (List.mem_singleton_self slash)
    rw [sound.named.unique other idx otherUsed used otherInner inner sameParent sameName]

/-- When the loop arrives at the root its parts lead back down. -/
theorem Sound.walk_spelled (sound : Sound fs) (dir : fs.Dir idx) (plain : ¬ fs.Dotted idx) {turns : Nat}
    (top : fs.climb turns idx = 0) : fs.walk 0 ((spell (fs.parts turns idx)).splitOn slash) = .ok idx := by
  induction turns generalizing idx with
  | zero =>
    have here : idx = 0 := top
    rw [here]
    rfl
  | succ turns ih =>
    by_cases inner : idx = 0
    · rw [inner, parts_root]
      rfl
    · have component := sound.named.component idx dir.1 inner
      rw [sound.parts_succ dir.1 inner, splitOn_spell component, walk_append,
        ih (sound.parents idx dir.1) (sound.named.parents idx dir.1) top]
      dsimp only
      have proper := sound.proper dir.1 inner plain
      rw [← component.cutName_eq] at proper
      rw [walk_proper proper, component.cutName_eq, sound.find_self dir.1 inner]
      simp only [dir.2, ne_eq, not_true_eq_false, ↓reduceIte, walk]

/-- Each component that is walked down is a step on the way up. -/
theorem climb_of_walk {names : List (List Byte)} {start : Index} (each : ∀ name ∈ names, Component name ∧ Proper name)
    (walked : fs.walk start ((spell names).splitOn slash) = .ok idx) : fs.climb names.length idx = start := by
  induction names generalizing idx with
  | nil =>
    cases walked
    rfl
  | cons name rest ih =>
    obtain ⟨⟨component, proper⟩, others⟩ := List.forall_mem_cons.mp each
    rw [splitOn_spell component, walk_append] at walked
    split at walked
    · cases walked
    · next parent above =>
      rw [← component.cutName_eq] at proper
      rw [walk_proper proper, component.cutName_eq] at walked
      split at walked
      · cases walked
      · next child found =>
        split at walked
        · cases walked
        · cases walked
          rw [List.length_cons, climb, (findNodeInDir_some found).2.1]
          exact ih others above

/-- The string names its directory if that is no deeper than the loop goes. -/
theorem Sound.resolve_spelled (sound : Sound fs) (dir : fs.Dir idx) (plain : ¬ fs.Dotted idx) (inner : idx ≠ 0)
    {path : CString} {turns : Nat} (spelled : path.bytes = spell (fs.parts (turns + 1) idx))
    (fits : path.bytes.length < fsMaxPath) :
    fs.resolveFullPath path = .ok idx ↔ fs.climb (turns + 1) idx = 0 := by
  have component := sound.named.component idx dir.1 inner
  have proper := sound.proper dir.1 inner plain
  rw [sound.parts_succ dir.1 inner, spell_cons] at spelled
  have other : path.bytes ≠ [slash] := by
    intro same
    have lengths := congrArg List.length (spelled.symm.trans same)
    rw [List.length_append, List.length_cons, List.length_singleton] at lengths
    exact component.nonempty (List.eq_nil_of_length_eq_zero (by omega))
  have absolute := @resolvePath_absolute fs _ path _ spelled (spell_absolute _) component fits
  constructor
  · intro resolved
    cases walked : fs.walk 0 ((spell (fs.parts turns (fs.up idx))).splitOn slash) with
    | error error =>
      rw [walked] at absolute
      have nonempty : path.bytes ≠ [] := by
        rw [spelled]
        exact List.append_ne_nil_of_right_ne_nil _ (List.cons_ne_nil _ _)
      rw [resolveFullPath, if_neg nonempty, if_neg other, absolute] at resolved
      cases resolved
    | ok parent =>
      rw [walked] at absolute
      rw [resolveFullPath_proper other absolute proper] at resolved
      split at resolved
      · cases resolved
      · next child found =>
        cases resolved
        have above := climb_of_walk (sound.parts_proper (sound.parents idx dir.1).1 (sound.named.parents idx dir.1) turns) walked
        rw [← (findNodeInDir_some found).2.1] at above
        rw [climb]
        exact sound.climb_le (length_parts_le fs turns _) above
  · intro top
    rw [sound.walk_spelled (sound.parents idx dir.1) (sound.named.parents idx dir.1) top] at absolute
    rw [resolveFullPath_proper other absolute proper, sound.find_self dir.1 inner]

section Moving

variable {cwd : List Byte}

theorem parts_moved (fs : RamFs) (turns : Nat) (i : Index) : ({ fs with cwdIdx := idx, cwd }).parts turns i = fs.parts turns i := by
  induction turns generalizing i with
  | zero => rfl
  | succ turns ih => simp only [parts, ih]

theorem climb_moved (fs : RamFs) (steps : Nat) (i : Index) : ({ fs with cwdIdx := idx, cwd }).climb steps i = fs.climb steps i := by
  induction steps generalizing i with
  | zero => rfl
  | succ steps ih =>
    rw [climb, climb, ih]
    rfl

theorem getCwd_bytes (terminated : (0 : Byte) ∉ fs.cwd) : fs.getCwd.bytes = fs.cwd := by
  rw [getCwd]
  dsimp only
  rw [List.takeWhile_eq_self_iff]
  intro byte member
  rw [decide_eq_true_iff]
  rintro rfl
  exact terminated member

theorem cwdRight_root (fs : RamFs) : CwdRight { fs with cwdIdx := 0, cwd := [slash] } :=
  ⟨Nat.lt_of_sub_eq_succ rfl, rfl⟩

end Moving

/-- The directory is at most eight levels deep, and the names on the way to it
fit into the array with their slashes. -/
def Spellable (fs : RamFs) (idx : Index) : Prop :=
  fs.climb fsMaxPathDepth idx = 0 ∧ fs.nameBytes fsMaxPathDepth idx < fsMaxPath

instance (fs : RamFs) (idx : Index) : Decidable (fs.Spellable idx) := inferInstanceAs (Decidable (_ ∧ _))

theorem Sound.spellable_root (sound : Sound fs) : fs.Spellable 0 := by
  refine ⟨sound.climb_root _, ?_⟩
  rw [fsMaxPathDepth, nameBytes, if_pos rfl, fsMaxPath]
  decide

theorem Sound.cwdRight_moved (sound : Sound fs) (dir : fs.Dir idx) (plain : ¬ fs.Dotted idx) (inner : idx ≠ 0) :
    CwdRight { fs with cwdIdx := idx, cwd := spell (fs.parts fsMaxPathDepth idx) } ↔ fs.Spellable idx := by
  have terminated := spell_terminated fun part member => (sound.parts_proper dir.1 plain fsMaxPathDepth part member).1
  have bytes := @getCwd_bytes { fs with cwdIdx := idx, cwd := spell (fs.parts fsMaxPathDepth idx) } terminated
  have moved : Sound { fs with cwdIdx := idx, cwd := spell (fs.parts fsMaxPathDepth idx) } := by
    refine ⟨sound.toRooted.setCwd dir _, ?_⟩
    exact ⟨sound.named.component, sound.named.unique, sound.named.rootName, sound.named.parents, plain⟩
  rw [CwdRight, Spellable, ← sound.length_spell dir.1, and_comm, and_congr_left_iff]
  intro fits
  rw [moved.resolve_spelled dir plain inner (bytes.trans (congrArg spell (parts_moved fs _ _).symm)) (bytes ▸ fits),
    climb_moved]
  rfl

/-- A directory that `fs_change_dir` accepts is printed right exactly when its
depth and the length of its path fit into the buffers. -/
theorem working_directory_printed (run : Reachable KeepingStep init fs) (path : CString)
    (accepted : ∀ code after, fs.changeDir path = some (code, after) → code = 0) :
    (∃ code after, fs.changeDir path = some (code, after) ∧ after.CwdRight) ↔
      path.bytes = [] ∨ ∃ idx, fs.resolveFullPath path = .ok idx ∧ fs.Spellable idx := by
  have sound := Sound.of_reachable run
  by_cases empty : path.bytes = []
  · rw [changeDir, if_pos empty]
    exact iff_of_true ⟨_, _, rfl, cwdRight_root fs⟩ (.inl empty)
  · rw [changeDir, if_neg empty] at accepted ⊢
    cases resolved : fs.resolveFullPath path with
    | error error =>
      rw [resolved] at accepted
      exact absurd (accepted _ _ rfl) (FsError.code_neg .notFound).ne
    | ok idx =>
      simp only [resolved] at accepted ⊢
      by_cases dir : (fs.nodes idx).type = .dir
      · simp only [dir, ne_eq, not_true_eq_false, ↓reduceIte]
        have isDir : fs.Dir idx := ⟨sound.resolveFullPath_used resolved, dir⟩
        have only : (path.bytes = [] ∨ ∃ other, (.ok idx : Except FsError Index) = .ok other ∧ fs.Spellable other) ↔
            fs.Spellable idx := by
          simp [empty]
        rw [only]
        by_cases inner : idx = 0
        · rw [if_pos inner, inner]
          exact iff_of_true ⟨_, _, rfl, cwdRight_root fs⟩ sound.spellable_root
        · rw [if_neg inner]
          by_cases fits : (spell (fs.parts fsMaxPathDepth idx)).length < fsMaxPath
          · simp only [fits, ↓reduceIte, Option.some.injEq, Prod.mk.injEq]
            rw [← sound.cwdRight_moved isDir (sound.resolveFullPath_undotted resolved) inner]
            constructor
            · rintro ⟨_, _, ⟨_, rfl⟩, right⟩
              exact right
            · exact fun right => ⟨_, _, ⟨rfl, rfl⟩, right⟩
          · rw [if_neg fits]
            refine iff_of_false (by simp) fun spellable => fits ?_
            rw [sound.length_spell isDir.1]
            exact spellable.2
      · rw [if_pos dir] at accepted
        exact absurd (accepted _ _ rfl) (FsError.code_neg .notDir).ne

theorem working_directory_printed_inside : Reachable KeepingStep init inside ∧
    ∃ code after, inside.changeDir ⟨[dot], by decide⟩ = some (code, after) ∧ after.CwdRight := by
  refine ⟨inside_reachable, (working_directory_printed inside_reachable _ ?_).mpr ?_⟩
  · intro code after changed
    have zero : (inside.changeDir ⟨[dot], by decide⟩).all (fun result => decide (result.1 = 0)) = true := by
      decide +kernel
    rw [changed] at zero
    exact of_decide_eq_true zero
  · exact .inr ⟨1, by decide +kernel, by decide +kernel⟩

/-- Nine levels down the loop loses the first of the names. -/
theorem working_directory_too_deep : ¬ ∀ fs, Reachable KeepingStep init fs → ∀ path after,
    fs.changeDir path = some (0, after) → after.CwdRight := by
  intro right
  have check : ((List.replicate 8 letterA).foldlM enter init).any (fun fs =>
      ((fs.createDir letterA).2.changeDir letterA).any fun last => decide (last.1 = 0 ∧ ¬ last.2.CwdRight)) = true := by
    decide +kernel
  obtain ⟨fs, entered, check⟩ := (Option.any_eq_true _ _).mp check
  obtain ⟨⟨code, after⟩, changed, check⟩ := (Option.any_eq_true _ _).mp check
  obtain ⟨zero, wrong⟩ := of_decide_eq_true check
  dsimp only at zero
  subst zero
  have run := (enter_reachable .refl entered).tail ⟨.createDir letterA, trivial, _, rfl⟩
  exact wrong (right _ run letterA after changed)

end MexOS.Fs.RamFs
