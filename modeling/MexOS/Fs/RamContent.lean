import MexOS.Fs.RamTree

/-! Files in memory as strings of at most 4096 bytes, in every state that the
calls lead to which stay inside `cwd`. -/

namespace MexOS.Fs.RamFs

open MexOS.Machine

/-- No file is longer than its array. -/
def Bounded (fs : RamFs) : Prop := ∀ i, (fs.nodes i).size ≤ fsMaxFileSize

/-- The used node that a call is about. A new node was not used before. -/
def Call.Addresses (fs : RamFs) (i : Index) : Call → Prop
  | remove path | write path _ _ | append path _ _ => fs.resolveFullPath path = .ok i
  | _ => False

/-- The calls about one node. -/
def Call.Single : Call → Prop
  | createFile _ | createDir _ | remove _ | write _ _ _ | append _ _ _ => True
  | _ => False

variable {fs : RamFs}

/-- Everything a call can do. -/
inductive Effect (fs : RamFs) : Call → Int × RamFs → Prop
  | failed (error : FsError) : Effect fs call (error.code, fs)
  | node (idx : Index) (node : FsNode) (result : Nat) : call.Single →
    ((fs.nodes idx).used = false ∨ call.Addresses fs idx) → (Bounded fs → node.size ≤ fsMaxFileSize) →
    Effect fs call (result, fs.setNode idx node)
  | moved (cwdIdx : Index) (cwd : List Byte) : Effect fs (.changeDir path) (0, { fs with cwdIdx, cwd })
  | cleared : Effect fs .clearCache (0, fs.clearCache)

section Effects

theorem Call.effect {call : Call} (ran : call.run fs = some result) : Effect fs call result := by
  cases call.outcome ran with
  | failed error => exact .failed error
  | created node creates _ _ _ free _ empty =>
    refine .node _ node 0 ?_ (.inl free) fun _ => ?_
    · rcases creates with rfl | rfl <;> trivial
    · rw [empty]
      exact Nat.zero_le _
  | removed resolved => exact .node _ _ 0 trivial (.inr resolved) fun _ => Nat.zero_le _
  | written resolved => exact .node _ _ _ trivial (.inr resolved) fun _ => Nat.min_le_right _ _
  | @appended _ idx _ _ resolved =>
    refine .node idx _ _ trivial (.inr resolved) fun bounded => ?_
    have room := bounded idx
    dsimp only
    omega
  | moved cwd => exact .moved _ cwd
  | cleared => exact .cleared

theorem Effect.negative {result : Int × RamFs} (effect : Effect fs call result) (failed : result.1 < 0) :
    result.2 = fs := by
  cases effect with
  | failed => rfl
  | node => omega
  | moved => cases failed
  | cleared => cases failed

/-- A node that was used and is not addressed stays as it is. -/
theorem Effect.elsewhere {result : Int × RamFs} (effect : Effect fs call result) (single : call.Single) {i : Index}
    (used : (fs.nodes i).used = true) (elsewhere : ¬ call.Addresses fs i) : result.2.nodes i = fs.nodes i := by
  cases effect with
  | failed => rfl
  | node idx node _ _ here =>
    refine setNode_other fs node ?_
    rintro rfl
    rcases here with free | addressed
    · rw [free] at used
      cases used
    · exact elsewhere addressed
  | moved => cases single
  | cleared => cases single

theorem Effect.bounded {result : Int × RamFs} (effect : Effect fs call result) (bounded : Bounded fs) :
    Bounded result.2 := by
  intro i
  cases effect with
  | failed => exact bounded i
  | node idx node _ _ _ size =>
    by_cases here : i = idx
    · subst here
      rw [setNode_self]
      exact size bounded
    · rw [setNode_other fs node here]
      exact bounded i
  | moved => exact bounded i
  | cleared =>
    simp only [clearCache]
    split
    · exact bounded i
    · exact Nat.zero_le _

end Effects

theorem Bounded.of_reachable (run : Reachable Step init fs) : Bounded fs := by
  refine run.invariant ?_ ?_
  · intro i
    rw [init]
    by_cases root : i = 0
    · subst root
      exact Nat.zero_le _
    · simp only [Function.update_of_ne root]
      exact Nat.zero_le _
  · rintro before after bounded ⟨call, _, code, ran⟩
    exact (Call.effect ran).bounded bounded

/-- What the calls on a used file return and make of its content. -/
structure ByteString (fs : RamFs) (path : CString) (idx : Index) : Prop where
  write : ∀ data size, (fs.write path data size).1 = ((min size fsMaxFileSize : Nat) : Int) ∧
    ((fs.write path data size).2.nodes idx).content = data.toList (min size fsMaxFileSize)
  append : ∀ data size, (fs.append path data size).1 =
      ((min size (fsMaxFileSize - (fs.nodes idx).content.length) : Nat) : Int) ∧
    ((fs.append path data size).2.nodes idx).content =
      (fs.nodes idx).content ++ data.toList (min size (fsMaxFileSize - (fs.nodes idx).content.length))
  read : ∀ buffer size, (fs.read path buffer size).1 = ((min size (fs.nodes idx).content.length : Nat) : Int) ∧
    (fs.read path buffer size).2.toList (min size (fs.nodes idx).content.length) = (fs.nodes idx).content.take size

theorem content_eq (node : FsNode) : node.content = node.data.toList node.size := rfl

theorem byteString_of_file {path : CString} {idx : Index} (resolved : fs.resolveFullPath path = .ok idx)
    (file : (fs.nodes idx).type = .file) : ByteString fs path idx := by
  have length : (fs.nodes idx).content.length = (fs.nodes idx).size := Bytes.length_toList _ _
  refine ⟨?_, ?_, ?_⟩
  · intro data size
    rw [write_eq resolved file, setNode_self]
    exact ⟨rfl, Bytes.toList_copy_front _ _ _⟩
  · intro data size
    rw [append_eq resolved file, setNode_self, length]
    exact ⟨rfl, Bytes.toList_copy_behind _ _ _ _⟩
  · intro buffer size
    have cut : (if size < (fs.nodes idx).size then size else (fs.nodes idx).size) = min size (fs.nodes idx).size := by
      split <;> omega
    have answer : fs.read path buffer size = (((min size (fs.nodes idx).size : Nat) : Int),
        buffer.copy 0 (fs.nodes idx).data 0 (min size (fs.nodes idx).size)) := by
      simp only [read, resolved, file, ne_eq, not_true_eq_false, ↓reduceIte, cut]
    rw [answer, length, Bytes.toList_copy_front, content_eq, Bytes.take_toList]
    exact ⟨rfl, rfl⟩

/-- The call has a result; it changes no other used node, and nothing if it
fails. -/
def Call.Confined (fs : RamFs) (call : Call) : Prop :=
  ∃ code after, call.run fs = some (code, after) ∧
    (call.Single → ∀ i, (fs.nodes i).used = true → ¬ call.Addresses fs i → after.nodes i = fs.nodes i) ∧
    (code < 0 → after = fs)

/-- After a run whose calls stay inside `cwd` a path to a used file stands for
a string of at most 4096 bytes, which the calls replace, extend and return; new
files are empty; and exactly the calls that stay inside `cwd` again change no
other used node, and nothing when they fail. -/
theorem ram_files_are_byte_strings (run : Reachable Step init fs) :
    (∀ path idx, fs.resolveFullPath path = .ok idx → (fs.nodes idx).used = true → (fs.nodes idx).type = .file →
      (fs.nodes idx).content.length ≤ fsMaxFileSize ∧ ByteString fs path idx) ∧
    (∀ path, (fs.createFile path).1 = 0 → ∃ idx, (fs.nodes idx).used = false ∧
      ((fs.createFile path).2.nodes idx).used = true ∧ ((fs.createFile path).2.nodes idx).type = .file ∧
      ((fs.createFile path).2.nodes idx).content = []) ∧
    ∀ call : Call, call.Confined fs ↔ call.Fits fs := by
  refine ⟨?_, ?_, ?_⟩
  · intro path idx resolved _ file
    refine ⟨?_, byteString_of_file resolved file⟩
    rw [content_eq, Bytes.length_toList]
    exact Bounded.of_reachable run idx
  · intro path succeeded
    unfold createFile at succeeded ⊢
    rcases createNode_cases fs path (fun _ name parentIdx =>
      { name, type := .file, used := true, size := 0, parentIdx, data := Bytes.zero }) with
      ⟨error, failed⟩ | ⟨idx, name, parentIdx, created⟩
    · rw [failed] at succeeded
      have negative := error.code_neg
      omega
    · rw [created.result]
      refine ⟨idx, created.free, ?_⟩
      rw [setNode_self]
      exact ⟨rfl, rfl, rfl⟩
  · intro call
    rw [Call.fits_iff]
    constructor
    · rintro ⟨code, after, ran, _⟩
      exact ⟨code, after, ran⟩
    · rintro ⟨code, after, ran⟩
      have effect := Call.effect ran
      exact ⟨code, after, ran, fun single i => effect.elsewhere single, effect.negative⟩

/-- A file with two bytes. -/
def twoBytes : RamFs := ((init.createFile letterA).2.write letterA (fun _ => 7) 2).2

theorem twoBytes_reachable : Reachable Step init twoBytes :=
  (Relation.ReflTransGen.single ⟨.createFile letterA, trivial, _, rfl⟩).tail
    ⟨.write letterA (fun _ => 7) 2, trivial, _, rfl⟩

theorem ram_files_are_byte_strings_two_bytes :
    twoBytes.resolveFullPath letterA = .ok 1 ∧ (twoBytes.nodes 1).content = [7, 7] ∧ ByteString twoBytes letterA 1 := by
  have resolved : twoBytes.resolveFullPath letterA = .ok 1 := by decide +kernel
  exact ⟨resolved, by decide +kernel,
    ((ram_files_are_byte_strings twoBytes_reachable).1 letterA 1 resolved (by decide +kernel) (by decide +kernel)).2⟩

/-- `fs_change_dir` writes over what lies behind `cwd`. -/
theorem ram_calls_not_confined : ¬ ∀ fs, Reachable Step init fs → ∀ call : Call, call.Confined fs := by
  intro holds
  obtain ⟨fs, idx, run, overrun, _⟩ := cwd_overrun
  obtain ⟨code, after, ran, _⟩ := holds fs (reachable_of_keeping run) (.changeDir fifthName)
  rw [overrun] at ran
  cases ran

end MexOS.Fs.RamFs
