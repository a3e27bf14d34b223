import MexOS.Fs.Diskfs
import Mathlib.Data.List.TakeWhile

/-! The file system in memory of `fs/fs.c`: the branches that are taken while
the disk is not enabled. -/

namespace MexOS.Fs

open MexOS.Machine

def fsMaxName : Nat := 32
def fsMaxPath : Nat := 128
def fsMaxFileSize : Nat := 4096
def fsMaxPathDepth : Nat := 8

/-- An index into the `FS_MAX_FILES` nodes of `fs_nodes`. -/
abbrev Index := Fin 64

instance nodes_neZero : NeZero 64 := ⟨by decide⟩

def slash : Byte := 47
def dot : Byte := 46

inductive FsError where
  | notFound
  | exists
  | full
  | invalid
  | notEmpty
  | isDir
  | notDir
deriving DecidableEq, Repr

/-- The macros `FS_ERR_...`; `FS_ERR_OK` is 0. -/
def FsError.code : FsError → Int
  | notFound => -1
  | «exists» => -2
  | full => -3
  | invalid => -4
  | notEmpty => -5
  | isDir => -6
  | notDir => -7

theorem FsError.code_neg (error : FsError) : error.code < 0 := by
  cases error <;> decide

inductive NodeType where
  | file
  | dir
deriving DecidableEq, Repr

/-- A `struct fs_node`; the name is the string in its buffer. -/
structure FsNode where
  name : List Byte
  type : NodeType
  used : Bool
  size : Nat
  parentIdx : Index
  data : Bytes

namespace FsNode

/-- What `memset` leaves. -/
def zero : FsNode := { name := [], type := .file, used := false, size := 0, parentIdx := 0, data := Bytes.zero }

def root : FsNode := { zero with used := true, type := .dir, name := [slash] }

/-- The first `size` bytes of the data. -/
def content (node : FsNode) : List Byte := (List.range node.size).map node.data

end FsNode

/-- The statics of `fs.c` that describe files in memory. `cwd` is the string in
the array of that name. -/
structure RamFs where
  nodes : Index → FsNode
  cwdIdx : Index
  cwd : List Byte

namespace RamFs

def init : RamFs where
  nodes := Function.update (fun _ => FsNode.zero) 0 FsNode.root
  cwdIdx := 0
  cwd := [slash]

def indices : List Index := List.finRange 64

def findFreeNode (fs : RamFs) : Option Index := indices.find? fun i => !(fs.nodes i).used

def findNodeInDir (fs : RamFs) (dirIdx : Index) (name : List Byte) : Option Index :=
  indices.find? fun i => (fs.nodes i).used && (fs.nodes i).parentIdx == dirIdx && (fs.nodes i).name == name

/-- What is before and what is behind the last slash. -/
def lastSlash : List Byte → Option (List Byte × List Byte)
  | [] => none
  | byte :: rest =>
    match lastSlash rest with
    | some (dirPart, namePart) => some (byte :: dirPart, namePart)
    | none => if byte = slash then some ([], rest) else none

/-- A string cut to the buffers for names. -/
def cutName (name : List Byte) : List Byte := name.take (fsMaxName - 1)

/-- The parent, but for the root. -/
def parentDir (fs : RamFs) (current : Index) : Index :=
  if current ≠ 0 then (fs.nodes current).parentIdx else current

/-- The loop of `resolve_path` over the components of the directory part. -/
def walk (fs : RamFs) : Index → List (List Byte) → Except FsError Index
  | current, [] => .ok current
  | current, token :: rest =>
    let component := cutName token
    if component = [] then fs.walk current rest
    else if component = [dot] then fs.walk current rest
    else if component = [dot, dot] then fs.walk (fs.parentDir current) rest
    else
      match fs.findNodeInDir current component with
      | none => .error .notFound
      | some idx => if (fs.nodes idx).type ≠ .dir then .error .notFound else fs.walk idx rest

/-- The index of the parent and the base name. A NULL path is answered like an
empty one, here and in all functions below. -/
def resolvePath (fs : RamFs) (path : CString) : Except FsError (Index × List Byte) :=
  if path.bytes = [] then .error .invalid
  else
    let buf := path.bytes.take (fsMaxPath - 1)
    let current := if buf.head? = some slash then 0 else fs.cwdIdx
    let p := if buf.head? = some slash then buf.tail else buf
    match lastSlash p with
    | none => .ok (current, cutName p)
    | some (dirPart, namePart) =>
      match fs.walk current (dirPart.splitOn slash) with
      | .error error => .error error
      | .ok parentIdx => .ok (parentIdx, cutName namePart)

def resolveFullPath (fs : RamFs) (path : CString) : Except FsError Index :=
  if path.bytes = [] then .error .invalid
  else if path.bytes = [slash] then .ok 0
  else
    match fs.resolvePath path with
    | .error error => .error error
    | .ok (parentIdx, basename) =>
      if basename = [] then .ok parentIdx
      else if basename = [dot] then .ok parentIdx
      else if basename = [dot, dot] then .ok (fs.parentDir parentIdx)
      else
        match fs.findNodeInDir parentIdx basename with
        | none => .error .notFound
        | some idx => .ok idx

def setNode (fs : RamFs) (idx : Index) (node : FsNode) : RamFs :=
  { fs with nodes := Function.update fs.nodes idx node }

/-- `fs_create_file` and `fs_create_dir` up to the filling in of the new node. -/
def createNode (fs : RamFs) (path : CString) (fill : FsNode → List Byte → Index → FsNode) : Int × RamFs :=
  match fs.resolvePath path with
  | .error error => (error.code, fs)
  | .ok (parentIdx, basename) =>
    if basename = [] then (FsError.invalid.code, fs)
    else if (fs.findNodeInDir parentIdx basename).isSome then (FsError.exists.code, fs)
    else
      match fs.findFreeNode with
      | none => (FsError.full.code, fs)
      | some idx => (0, fs.setNode idx (fill (fs.nodes idx) basename parentIdx))

def createFile (fs : RamFs) (path : CString) : Int × RamFs :=
  fs.createNode path fun _ name parentIdx =>
    { name, type := .file, used := true, size := 0, parentIdx, data := Bytes.zero }

/-- The data of the slot stay as they were. -/
def createDir (fs : RamFs) (path : CString) : Int × RamFs :=
  fs.createNode path fun old name parentIdx =>
    { old with name, type := .dir, used := true, size := 0, parentIdx }

/-- Some used node has `idx` for its parent. -/
def hasChild (fs : RamFs) (idx : Index) : Bool :=
  indices.any fun i => (fs.nodes i).used && (fs.nodes i).parentIdx == idx

def remove (fs : RamFs) (path : CString) : Int × RamFs :=
  match fs.resolveFullPath path with
  | .error _ => (FsError.notFound.code, fs)
  | .ok idx =>
    if idx = 0 then (FsError.invalid.code, fs)
    else if (fs.nodes idx).type = .dir ∧ fs.hasChild idx then (FsError.notEmpty.code, fs)
    else (0, fs.setNode idx FsNode.zero)

def read (fs : RamFs) (path : CString) (buffer : Bytes) (size : Nat) : Int × Bytes :=
  match fs.resolveFullPath path with
  | .error _ => (FsError.notFound.code, buffer)
  | .ok idx =>
    if (fs.nodes idx).type ≠ .file then (FsError.isDir.code, buffer)
    else
      let toRead := if size < (fs.nodes idx).size then size else (fs.nodes idx).size
      (toRead, buffer.copy 0 (fs.nodes idx).data 0 toRead)

def write (fs : RamFs) (path : CString) (data : Bytes) (size : Nat) : Int × RamFs :=
  match fs.resolveFullPath path with
  | .error _ => (FsError.notFound.code, fs)
  | .ok idx =>
    if (fs.nodes idx).type ≠ .file then (FsError.isDir.code, fs)
    else
      let size := if size > fsMaxFileSize then fsMaxFileSize else size
      (size, fs.setNode idx { fs.nodes idx with data := (fs.nodes idx).data.copy 0 data 0 size, size })

def append (fs : RamFs) (path : CString) (data : Bytes) (size : Nat) : Int × RamFs :=
  match fs.resolveFullPath path with
  | .error _ => (FsError.notFound.code, fs)
  | .ok idx =>
    if (fs.nodes idx).type ≠ .file then (FsError.isDir.code, fs)
    else
      let node := fs.nodes idx
      let available := fsMaxFileSize - node.size
      let size := if size > available then available else size
      (size, fs.setNode idx { node with data := node.data.copy node.size data 0 size, size := node.size + size })

/-- The loop of `fs_change_dir` that collects the names on the way up. -/
def parts (fs : RamFs) : Nat → Index → List (List Byte)
  | 0, _ => []
  | turns + 1, current =>
    if current ≠ 0 then cutName (fs.nodes current).name :: fs.parts turns (fs.nodes current).parentIdx else []

/-- A slash before each of the parts, the last of them first. -/
def spell (parts : List (List Byte)) : List Byte := (parts.reverse.map fun part => slash :: part).flatten

/-- `strcat` does not look at the end of `cwd`: a string with more bytes runs
into what lies behind the array, and the call has no result. -/
def changeDir (fs : RamFs) (path : CString) : Option (Int × RamFs) :=
  if path.bytes = [] then some (0, { fs with cwdIdx := 0, cwd := [slash] })
  else
    match fs.resolveFullPath path with
    | .error _ => some (FsError.notFound.code, fs)
    | .ok idx =>
      if (fs.nodes idx).type ≠ .dir then some (FsError.notDir.code, fs)
      else if idx = 0 then some (0, { fs with cwdIdx := 0, cwd := [slash] })
      else
        let cwd := spell (fs.parts fsMaxPathDepth idx)
        if cwd.length < fsMaxPath then some (0, { fs with cwdIdx := idx, cwd }) else none

/-- The string that `fs_get_cwd` points to. -/
def getCwd (fs : RamFs) : CString where
  bytes := fs.cwd.takeWhile fun byte => byte ≠ 0
  terminated member := by simpa using List.mem_takeWhile_imp member

def fsExists (fs : RamFs) (path : CString) : Bool := (fs.resolveFullPath path).isOk

def isDir (fs : RamFs) (path : CString) : Bool :=
  match fs.resolveFullPath path with
  | .error _ => false
  | .ok idx => (fs.nodes idx).type = .dir

def getSize (fs : RamFs) (path : CString) : Nat :=
  match fs.resolveFullPath path with
  | .error _ => 0
  | .ok idx => (fs.nodes idx).size

def clearCache (fs : RamFs) : RamFs where
  nodes i := if i = 0 then fs.nodes i else FsNode.zero
  cwdIdx := 0
  cwd := [slash]

/-- The calls that change something. -/
inductive Call where
  | createFile (path : CString)
  | createDir (path : CString)
  | remove (path : CString)
  | write (path : CString) (data : Bytes) (size : Nat)
  | append (path : CString) (data : Bytes) (size : Nat)
  | changeDir (path : CString)
  | clearCache

def Call.run (fs : RamFs) : Call → Option (Int × RamFs)
  | createFile path => some (fs.createFile path)
  | createDir path => some (fs.createDir path)
  | remove path => some (fs.remove path)
  | write path data size => some (fs.write path data size)
  | append path data size => some (fs.append path data size)
  | changeDir path => fs.changeDir path
  | clearCache => some (0, fs.clearCache)

/-- The way to a directory that the call enters is spelled with fewer bytes
than `cwd` has. -/
def Call.Fits (fs : RamFs) : Call → Prop
  | changeDir path => ∀ idx, fs.resolveFullPath path = .ok idx → (fs.nodes idx).type = .dir →
    (spell (fs.parts fsMaxPathDepth idx)).length < fsMaxPath
  | _ => True

section ChangingDir

variable {fs : RamFs} {path : CString}

/-- Everything that `fs_change_dir` does. -/
theorem changeDir_cases (changed : fs.changeDir path = some (code, after)) :
    (∃ error : FsError, code = error.code ∧ after = fs) ∨
    ∃ idx cwd, code = 0 ∧ after = { fs with cwdIdx := idx, cwd } ∧
      (idx = 0 ∨ fs.resolveFullPath path = .ok idx ∧ (fs.nodes idx).type = .dir) := by
  rw [changeDir] at changed
  by_cases empty : path.bytes = []
  · rw [if_pos empty] at changed
    cases changed
    exact .inr ⟨0, [slash], rfl, rfl, .inl rfl⟩
  · rw [if_neg empty] at changed
    cases resolved : fs.resolveFullPath path with
    | error error =>
      rw [resolved] at changed
      cases changed
      exact .inl ⟨.notFound, rfl, rfl⟩
    | ok idx =>
      simp only [resolved] at changed
      split at changed
      · cases changed
        exact .inl ⟨.notDir, rfl, rfl⟩
      · next dir =>
        split at changed
        · cases changed
          exact .inr ⟨0, [slash], rfl, rfl, .inl rfl⟩
        · split at changed
          · cases changed
            exact .inr ⟨idx, _, rfl, rfl, .inr ⟨rfl, not_not.mp dir⟩⟩
          · cases changed

theorem parts_root (fs : RamFs) (turns : Nat) : fs.parts turns 0 = [] := by
  cases turns <;> rfl

theorem Call.fits_iff {call : Call} : call.Fits fs ↔ ∃ code after, call.run fs = some (code, after) := by
  cases call with
  | changeDir path =>
    rw [Fits, run, RamFs.changeDir]
    by_cases empty : path.bytes = []
    · rw [if_pos empty]
      refine iff_of_true ?_ ⟨_, _, rfl⟩
      intro idx resolved
      rw [resolveFullPath, if_pos empty] at resolved
      cases resolved
    · rw [if_neg empty]
      cases resolved : fs.resolveFullPath path with
      | error error => exact iff_of_true (fun idx found => by cases found) ⟨_, _, rfl⟩
      | ok idx =>
        by_cases dir : (fs.nodes idx).type = .dir
        · by_cases root : idx = 0
          · subst root
            simp [dir, parts_root, spell, fsMaxPath]
          · simp [dir, root]
        · simp [dir]
  | _ => exact iff_of_true trivial ⟨_, _, rfl⟩

end ChangingDir

end RamFs

end MexOS.Fs
