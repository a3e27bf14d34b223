import MexOS.Fs.WorkingDirectory

/-! What a path names, read as a walk over its components, against `resolve_full_path`. -/

namespace MexOS.Fs.RamFs

open MexOS.Machine

/-- The used child of that name with the lowest index. -/
structure FirstChild (fs : RamFs) (current : Index) (name : List Byte) (child : Index) : Prop where
  used : (fs.nodes child).used = true
  parent : (fs.nodes child).parentIdx = current
  named : (fs.nodes child).name = name
  lowest : ∀ other < child, (fs.nodes other).used = true → (fs.nodes other).parentIdx = current →
    (fs.nodes other).name ≠ name

/-- Where a component leads from a node. Unless `file` it has to be a directory. -/
inductive Turn (fs : RamFs) (file : Prop) (current : Index) : List Byte → Index → Prop
  | stay : Turn fs file current [dot] current
  | top : current = 0 → Turn fs file current [dot, dot] 0
  | up : current ≠ 0 → Turn fs file current [dot, dot] (fs.nodes current).parentIdx
  | down : name ≠ [dot] → name ≠ [dot, dot] → fs.FirstChild current name child →
    (¬ file → (fs.nodes child).type = .dir) → Turn fs file current name child

/-- Where components lead one after the other. Only the last may be a file, and
only if `file`. -/
inductive Walks (fs : RamFs) (file : Prop) : Index → List (List Byte) → Index → Prop
  | arrived : Walks fs file current [] current
  | turn : fs.Turn (rest = [] ∧ file) current (cutName component) next → Walks fs file next rest idx →
    Walks fs file current (component :: rest) idx

/-- What stands between the slashes. -/
def components (path : List Byte) : List (List Byte) := (path.splitOn slash).filter fun component => component ≠ []

/-- The walk of a path: from the root if it begins with a slash, and to a
directory if it ends with one. -/
def Leads (fs : RamFs) (path : CString) (idx : Index) : Prop :=
  fs.Walks (path.bytes.getLast? ≠ some slash) (if path.bytes.head? = some slash then 0 else fs.cwdIdx)
    (components path.bytes) idx

/-- The `int` that stands for a result of `resolve_full_path`. -/
def returned : Except FsError Index → Int
  | .ok idx => idx.val
  | .error error => error.code

section Turning

variable {fs : RamFs} {current idx child : Index} {name : List Byte} {file : Prop}

theorem findNodeInDir_iff : fs.findNodeInDir current name = some child ↔ fs.FirstChild current name child := by
  rw [findNodeInDir, indices, List.find?_eq_some_iff_getElem]
  simp only [Bool.and_eq_true, beq_iff_eq, List.getElem_finRange, List.length_finRange]
  constructor
  · rintro ⟨⟨⟨used, parent⟩, named⟩, place, bound, here, before⟩
    refine ⟨used, parent, named, ?_⟩
    intro other lower usedToo parentToo same
    subst here
    have missed := before other.val lower
    simp [usedToo, parentToo, same] at missed
  · rintro ⟨used, parent, named, lowest⟩
    refine ⟨⟨⟨used, parent⟩, named⟩, child.val, child.isLt, rfl, ?_⟩
    intro place lower
    have missed := lowest ⟨place, lower.trans child.isLt⟩ lower
    rw [Bool.not_eq_true', ← Bool.not_eq_true, Bool.and_eq_true, Bool.and_eq_true, beq_iff_eq, beq_iff_eq]
    rintro ⟨⟨usedToo, parentToo⟩, same⟩
    exact missed usedToo parentToo same

theorem turn_dot : fs.Turn file current [dot] idx ↔ current = idx := by
  constructor
  · intro turn
    cases turn with
    | stay => rfl
    | down single => exact absurd rfl single
  · rintro rfl
    exact .stay

theorem turn_dots : fs.Turn file current [dot, dot] idx ↔ fs.parentDir current = idx := by
  rw [parentDir]
  constructor
  · intro turn
    cases turn with
    | top root => rw [if_neg (not_not_intro root), root]
    | up inner => rw [if_pos inner]
    | down _ double => exact absurd rfl double
  · split
    · next inner =>
      rintro rfl
      exact .up inner
    · next root =>
      rintro rfl
      rw [not_not.mp root]
      exact .top rfl

theorem turn_proper (proper : Proper name) :
    fs.Turn file current name idx ↔
      fs.findNodeInDir current name = some idx ∧ (¬ file → (fs.nodes idx).type = .dir) := by
  rw [findNodeInDir_iff]
  constructor
  · intro turn
    cases turn with
    | stay => exact absurd rfl proper.2.1
    | top => exact absurd rfl proper.2.2
    | up => exact absurd rfl proper.2.2
    | down _ _ first dir => exact ⟨first, dir⟩
  · rintro ⟨first, dir⟩
    exact .down proper.2.1 proper.2.2 first dir

theorem walks_nil : fs.Walks file current [] idx ↔ current = idx := by
  constructor
  · intro walks
    cases walks
    rfl
  · rintro rfl
    exact .arrived

theorem walks_cons {component : List Byte} {rest : List (List Byte)} :
    fs.Walks file current (component :: rest) idx ↔
      ∃ next, fs.Turn (rest = [] ∧ file) current (cutName component) next ∧ fs.Walks file next rest idx := by
  constructor
  · intro walks
    cases walks with
    | turn here further => exact ⟨_, here, further⟩
  · rintro ⟨next, here, further⟩
    exact .turn here further

theorem cutName_eq_nil : cutName name = [] ↔ name = [] := by
  rw [cutName, List.take_eq_nil_iff, fsMaxName]
  simp

/-- The loop of `resolve_path` walks over directories only. -/
theorem walk_iff (current : Index) (tokens : List (List Byte)) :
    fs.walk current tokens = .ok idx ↔ fs.Walks False current (tokens.filter fun token => token ≠ []) idx := by
  induction tokens generalizing current with
  | nil => simp [walk, walks_nil]
  | cons token rest ih =>
    by_cases empty : token = []
    · simp [walk, empty, cutName_nil, ih]
    · have cut : cutName token ≠ [] := fun nil => empty (cutName_eq_nil.mp nil)
      rw [List.filter_cons_of_pos (by simpa using empty), walks_cons]
      simp only [and_false]
      by_cases single : cutName token = [dot]
      · simp only [walk, if_neg cut, if_pos single, ih]
        rw [single]
        simp only [turn_dot, exists_eq_left']
      · by_cases double : cutName token = [dot, dot]
        · simp only [walk, if_neg cut, if_neg single, if_pos double, ih]
          rw [double]
          simp only [turn_dots, exists_eq_left']
        · have proper : Proper (cutName token) := ⟨cut, single, double⟩
          simp only [walk_proper proper, turn_proper proper, not_false_eq_true, forall_const]
          cases fs.findNodeInDir current (cutName token) with
          | none => simp
          | some child =>
            by_cases dir : (fs.nodes child).type = .dir
            · simp [dir, ih]
            · simp [dir]

/-- The last component may be a file. -/
theorem walks_concat {parts : List (List Byte)} :
    fs.Walks True current (parts ++ [name]) idx ↔
      ∃ next, fs.Walks False current parts next ∧ fs.Turn True next (cutName name) idx := by
  induction parts generalizing current with
  | nil =>
    simp only [List.nil_append, walks_cons, walks_nil, and_self, exists_eq_left', exists_eq_right]
  | cons part rest ih =>
    simp only [List.cons_append, walks_cons, List.append_eq_nil_iff, List.cons_ne_nil, and_false, and_true, ih]
    constructor
    · rintro ⟨mid, first, next, further, last⟩
      exact ⟨next, ⟨mid, first, further⟩, last⟩
    · rintro ⟨next, ⟨mid, first, further⟩, last⟩
      exact ⟨mid, first, next, further, last⟩

end Turning
section Components

variable {path name : List Byte}

theorem components_slash (path : List Byte) : components (slash :: path) = components path := by
  have parts := List.splitOn_append_cons_self [] path (a := slash)
  rw [List.nil_append, List.splitOn_nil] at parts
  rw [components, parts]
  rfl

theorem components_unslashed (clean : slash ∉ name) (nonempty : name ≠ []) : components name = [name] := by
  rw [components, List.splitOn_eq_singleton clean]
  simp [nonempty]

theorem components_append (path : List Byte) (clean : slash ∉ name) :
    components (path ++ slash :: name) = components path ++ if name = [] then [] else [name] := by
  rw [components, List.splitOn_append_cons_self, List.splitOn_eq_singleton clean, List.filter_append, components]
  split
  · next empty => simp [empty]
  · next nonempty => simp [nonempty]

theorem getLast?_append_slash (path : List Byte) (clean : slash ∉ name) :
    (path ++ slash :: name).getLast? = some slash ↔ name = [] := by
  constructor
  · intro last
    by_contra nonempty
    rw [List.getLast?_append_of_ne_nil _ (List.cons_ne_nil _ _), List.getLast?_cons_of_ne_nil nonempty] at last
    exact clean (List.mem_of_getLast? last)
  · rintro rfl
    exact List.getLast?_concat

end Components
section Resolution

variable {fs : RamFs} {path : CString} {parentIdx idx : Index} {name : List Byte}

theorem resolveFullPath_error (nonempty : path.bytes ≠ []) (other : path.bytes ≠ [slash]) {error : FsError}
    (resolved : fs.resolvePath path = .error error) : fs.resolveFullPath path = .error error := by
  rw [resolveFullPath, if_neg nonempty, if_neg other, resolved]

theorem resolveFullPath_slashed (nonempty : path.bytes ≠ []) (other : path.bytes ≠ [slash])
    (resolved : fs.resolvePath path = .ok (parentIdx, [])) : fs.resolveFullPath path = .ok parentIdx := by
  rw [resolveFullPath, if_neg nonempty, if_neg other, resolved]
  rfl

/-- The last component is looked up in the directory that the others lead to. -/
theorem resolveFullPath_last (nonempty : path.bytes ≠ []) (other : path.bytes ≠ [slash])
    (resolved : fs.resolvePath path = .ok (parentIdx, cutName name)) (final : name ≠ []) :
    fs.resolveFullPath path = .ok idx ↔ fs.Turn True parentIdx (cutName name) idx := by
  have cut : cutName name ≠ [] := fun nil => final (cutName_eq_nil.mp nil)
  rw [resolveFullPath, if_neg nonempty, if_neg other, resolved]
  dsimp only
  rw [if_neg cut]
  by_cases single : cutName name = [dot]
  · rw [if_pos single, single, turn_dot, Except.ok.injEq]
  · rw [if_neg single]
    by_cases double : cutName name = [dot, dot]
    · rw [if_pos double, double, turn_dots, Except.ok.injEq]
    · rw [if_neg double, turn_proper ⟨cut, single, double⟩]
      cases fs.findNodeInDir parentIdx (cutName name) with
      | none => simp
      | some child => simp

/-- The path without its first slash. -/
def relative (path : List Byte) : List Byte := if path.head? = some slash then path.tail else path

theorem relative_spec (path : List Byte) : path = relative path ∨ path = slash :: relative path := by
  rw [relative]
  split
  · next absolute =>
    right
    obtain ⟨tail, rfl⟩ := List.head?_eq_some_iff.mp absolute
    rfl
  · exact .inl rfl

theorem components_relative (path : List Byte) : components (relative path) = components path := by
  rcases relative_spec path with same | slashed
  · rw [← same]
  · conv_rhs => rw [slashed]
    rw [components_slash]

theorem getLast?_relative {path : List Byte} (nonempty : relative path ≠ []) :
    (relative path).getLast? = path.getLast? := by
  rcases relative_spec path with same | slashed
  · rw [← same]
  · conv_rhs => rw [slashed]
    rw [List.getLast?_cons_of_ne_nil nonempty]

theorem resolvePath_relative (nonempty : path.bytes ≠ []) (fits : path.bytes.length < fsMaxPath) :
    fs.resolvePath path =
      match lastSlash (relative path.bytes) with
      | none => .ok (if path.bytes.head? = some slash then 0 else fs.cwdIdx, cutName (relative path.bytes))
      | some (dirPart, namePart) =>
        match fs.walk (if path.bytes.head? = some slash then 0 else fs.cwdIdx) (dirPart.splitOn slash) with
        | .error error => .error error
        | .ok parentIdx => .ok (parentIdx, cutName namePart) := by
  have whole : path.bytes.take (fsMaxPath - 1) = path.bytes := List.take_of_length_le (by rw [fsMaxPath] at *; omega)
  rw [resolvePath, if_neg nonempty, whole]
  rfl

/-- `resolve_full_path` follows the walk of the path. -/
theorem resolveFullPath_iff (nonempty : path.bytes ≠ []) (fits : path.bytes.length < fsMaxPath) :
    fs.resolveFullPath path = .ok idx ↔ fs.Leads path idx := by
  by_cases root : path.bytes = [slash]
  · have empty : components [slash] = [] := components_slash []
    rw [resolveFullPath, if_neg nonempty, if_pos root, Leads, root, empty, walks_nil, Except.ok.injEq]
    rfl
  have rest : relative path.bytes ≠ [] := by
    intro empty
    rcases relative_spec path.bytes with same | slashed
    · exact nonempty (same.trans empty)
    · exact root (slashed.trans (congrArg _ empty))
  have resolved := @resolvePath_relative fs path nonempty fits
  rw [Leads, ← components_relative, ← getLast?_relative rest]
  cases last : lastSlash (relative path.bytes) with
  | none =>
    have clean := lastSlash_none last
    have unended : (relative path.bytes).getLast? ≠ some slash := fun ended => clean (List.mem_of_getLast? ended)
    rw [last] at resolved
    rw [resolveFullPath_last nonempty root resolved rest, components_unslashed clean rest, walks_cons]
    simp only [unended, ne_eq, not_false_eq_true, and_self, walks_nil, exists_eq_right]
  | some halves =>
    obtain ⟨dirPart, namePart⟩ := halves
    obtain ⟨shape, clean⟩ := lastSlash_some last
    rw [last] at resolved
    dsimp only at resolved
    have ended := getLast?_append_slash dirPart clean
    rw [shape, components_append dirPart clean, ne_eq, ended]
    by_cases final : namePart = []
    · have closed : (¬ namePart = []) = False := by simp [final]
      rw [if_pos final, List.append_nil, closed, components, ← walk_iff]
      cases walked : fs.walk (if path.bytes.head? = some slash then 0 else fs.cwdIdx) (dirPart.splitOn slash) with
      | error error =>
        rw [walked] at resolved
        rw [resolveFullPath_error nonempty root resolved]
      | ok parentIdx =>
        rw [walked, final] at resolved
        rw [resolveFullPath_slashed nonempty root resolved]
    · have mayBeFile : (¬ namePart = []) = True := by simp [final]
      rw [if_neg final, mayBeFile, walks_concat]
      simp only [components, ← walk_iff]
      cases walked : fs.walk (if path.bytes.head? = some slash then 0 else fs.cwdIdx) (dirPart.splitOn slash) with
      | error error =>
        rw [walked] at resolved
        rw [resolveFullPath_error nonempty root resolved]
        simp
      | ok parentIdx =>
        rw [walked] at resolved
        rw [resolveFullPath_last nonempty root resolved final]
        simp

/-- A path names the node that the walk over its components reaches, and the
result is negative exactly when the walk fails. -/
theorem path_walked (fs : RamFs) (path : CString) (nonempty : path.bytes ≠ []) (fits : path.bytes.length ≤ 127) :
    (∀ idx : Index, returned (fs.resolveFullPath path) = (idx : Int) ↔ fs.Leads path idx) ∧
      (returned (fs.resolveFullPath path) < 0 ↔ ¬ ∃ idx, fs.Leads path idx) := by
  have leads (idx : Index) := @resolveFullPath_iff fs path idx nonempty (Nat.lt_succ_of_le fits)
  cases resolved : fs.resolveFullPath path with
  | error error =>
    rw [resolved] at leads
    have negative : returned (.error error) < 0 := error.code_neg
    have nowhere (idx : Index) : ¬ fs.Leads path idx := by
      intro led
      cases (leads idx).mpr led
    refine ⟨fun idx => iff_of_false ?_ (nowhere idx), iff_of_true negative ?_⟩
    · have positive : (0 : Int) ≤ (idx : Nat) := Int.natCast_nonneg _
      omega
    · rintro ⟨idx, led⟩
      exact nowhere idx led
  | ok found =>
    rw [resolved] at leads
    refine ⟨fun idx => ?_, iff_of_false ?_ ?_⟩
    · rw [← leads idx, returned, Int.natCast_inj, Fin.val_inj, Except.ok.injEq]
    · exact not_lt_of_ge (Int.natCast_nonneg _)
    · exact not_not_intro ⟨found, (leads found).mp rfl⟩

/-- From inside the directory, up and into it again. -/
theorem path_walked_inside : returned (inside.resolveFullPath ⟨[dot, dot, slash, 97], by decide⟩) = (1 : Index).val ∧
    inside.Leads ⟨[dot, dot, slash, 97], by decide⟩ 1 := by
  have here : returned (inside.resolveFullPath ⟨[dot, dot, slash, 97], by decide⟩) = (1 : Index).val := by decide +kernel
  exact ⟨here, ((path_walked inside ⟨[dot, dot, slash, 97], by decide⟩ (by decide) (by decide)).1 1).mp here⟩

end Resolution

end MexOS.Fs.RamFs
