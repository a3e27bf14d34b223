import MexOS.Fs.RamTree
import MexOS.Machine.Output

/-! `fs_list_dir` of `fs/fs.c`. -/

namespace MexOS.Fs.RamFs

open MexOS.Machine

def lineFeed : Byte := 10
def bracketOpen : Byte := 91
def bracketClose : Byte := 93

/-- The directory that is listed. -/
def listTarget (fs : RamFs) (path : CString) : Except FsError Index :=
  if path.bytes = [] ∨ path.bytes = [dot] then .ok fs.cwdIdx else fs.resolveFullPath path

/-- The line of one node, and the terminator behind it. -/
def listEntry (node : FsNode) (out : Output) : Output :=
  let opened := if node.type = .dir then out.put bracketOpen else out
  let named := opened.append node.name
  let closed := if node.type = .dir then named.put bracketClose else named
  (closed.put lineFeed).terminate

/-- The loop over the nodes. -/
def listNodes (fs : RamFs) (idx : Index) (size : Nat) : List Index → Output → Output
  | [], out => out
  | i :: rest, out =>
    if (fs.nodes i).used && (fs.nodes i).parentIdx == idx && i != idx then
      let nameLen := (fs.nodes i).name.length
      let entryLen := nameLen + 2
      if out.pos + entryLen ≥ size then out else fs.listNodes idx size rest (listEntry (fs.nodes i) out)
    else fs.listNodes idx size rest out

def listDir (fs : RamFs) (path : CString) (buffer : Bytes) (size : Nat) : Int × Output :=
  match fs.listTarget path with
  | .error _ => (FsError.notFound.code, ⟨buffer, 0, []⟩)
  | .ok idx =>
    if (fs.nodes idx).type ≠ .dir then (FsError.notDir.code, ⟨buffer, 0, []⟩)
    else
      let out := fs.listNodes idx size indices (Output.terminate ⟨buffer, 0, []⟩)
      (out.pos, out)

/-- The nodes that are listed, in their order. -/
def children (fs : RamFs) (idx : Index) : List FsNode :=
  (indices.filter fun i => (fs.nodes i).used && (fs.nodes i).parentIdx == idx && i != idx).map fs.nodes

/-- How a node is shown. -/
def line (node : FsNode) : List Byte :=
  match node.type with
  | .file => node.name ++ [lineFeed]
  | .dir => bracketOpen :: node.name ++ [bracketClose, lineFeed]

def lines (nodes : List FsNode) : List Byte := (nodes.map line).flatten

/-- Only the buffer is written, the result is the index of the terminator, and in
front of it stand the lines of the first children, of all if they fit. -/
structure Listed (nodes : List FsNode) (size : Nat) (result : Int × Output) : Prop where
  inside : ∀ index ∈ result.2.written, index < size
  faithful : ∃ shown, shown <+: nodes ∧ result.1 = (lines shown).length ∧
    (∀ place (bound : place < (lines shown).length), result.2.buffer place = (lines shown)[place]) ∧
    result.2.buffer (lines shown).length = 0 ∧ ((lines nodes).length < size → shown = nodes)

/-- No lines up to that of a directory have exactly the size of the buffer, and a
list that ends with a file does not fill it exactly together with the
terminator. -/
structure ListFits (nodes : List FsNode) (size : Nat) : Prop where
  dirs : ∀ front node back, nodes = front ++ node :: back → node.type = .dir → (lines (front ++ [node])).length ≠ size
  last : ∀ front node, nodes = front ++ [node] → node.type = .file → (lines nodes).length + 1 ≠ size

/-- The children that are shown when the first line begins at `pos`. -/
def greedy (size : Nat) : Nat → List FsNode → List FsNode
  | _, [] => []
  | pos, node :: rest =>
    if pos + (node.name.length + 2) ≥ size then [] else node :: greedy size (pos + (line node).length) rest

variable {fs : RamFs} {idx : Index} {nodes : List FsNode} {node : FsNode} {size pos : Nat}

section Lines

@[simp] theorem lines_nil : lines [] = [] := rfl

theorem lines_cons (node : FsNode) (rest : List FsNode) : lines (node :: rest) = line node ++ lines rest := rfl

theorem lines_append (front back : List FsNode) : lines (front ++ back) = lines front ++ lines back := by
  rw [lines, List.map_append, List.flatten_append]
  rfl

theorem length_line_file (file : node.type = .file) : (line node).length = node.name.length + 1 := by
  simp [line, file]

theorem length_line_dir (dir : node.type = .dir) : (line node).length = node.name.length + 3 := by
  simp [line, dir]

theorem length_line (node : FsNode) :
    (line node).length = node.name.length + 1 ∨ (line node).length = node.name.length + 3 := by
  cases type : node.type with
  | file => exact .inl (length_line_file type)
  | dir => exact .inr (length_line_dir type)

theorem length_lines_singleton (node : FsNode) : (lines [node]).length = (line node).length := by
  rw [lines_cons, lines_nil, List.append_nil]

end Lines

section Greedy

theorem greedy_prefix (size pos : Nat) (nodes : List FsNode) : greedy size pos nodes <+: nodes := by
  induction nodes generalizing pos with
  | nil => exact List.prefix_refl _
  | cons node rest ih =>
    rw [greedy]
    split
    · exact List.nil_prefix
    · exact (List.prefix_cons_inj node).mpr (ih _)

/-- What leaves two bytes is shown. -/
theorem greedy_append {front : List FsNode} (room : pos + (lines front).length + 1 < size) (back : List FsNode) :
    greedy size pos (front ++ back) = front ++ greedy size (pos + (lines front).length) back := by
  induction front generalizing pos with
  | nil => rfl
  | cons node rest ih =>
    rw [lines_cons, List.length_append] at room ⊢
    have line := length_line node
    rw [List.cons_append, greedy, if_neg (by omega), ih (by omega), Nat.add_assoc, List.cons_append]

/-- No directory line ends at the end of the buffer, so the terminator behind
each line that is shown is inside. -/
theorem greedy_inside (start : pos < size)
    (fits : ∀ front node back, nodes = front ++ node :: back → node.type = .dir → pos + (lines (front ++ [node])).length ≠ size) :
    pos + (lines (greedy size pos nodes)).length < size := by
  induction nodes generalizing pos with
  | nil => exact start
  | cons node rest ih =>
    rw [greedy]
    split
    · exact start
    · next shown =>
      have next : pos + (line node).length < size := by
        cases type : node.type with
        | file =>
          rw [length_line_file type]
          omega
        | dir =>
          have other := fits [] node rest rfl type
          rw [List.nil_append, length_lines_singleton, length_line_dir type] at other
          rw [length_line_dir type]
          omega
      rw [lines_cons, List.length_append, ← Nat.add_assoc]
      refine ih next fun front other back shape dir => ?_
      have longer := fits (node :: front) other back (by rw [shape, List.cons_append]) dir
      rwa [List.cons_append, lines_cons, List.length_append, ← Nat.add_assoc] at longer

/-- A list that fits is shown whole, unless a file line at its end leaves just the
terminator. -/
theorem greedy_whole (room : pos + (lines nodes).length < size)
    (fits : ∀ front node, nodes = front ++ [node] → node.type = .file → pos + (lines nodes).length + 1 ≠ size) :
    greedy size pos nodes = nodes := by
  induction nodes generalizing pos with
  | nil => rfl
  | cons node rest ih =>
    rw [lines_cons, List.length_append] at room
    have here : ¬ pos + (node.name.length + 2) ≥ size := by
      cases rest with
      | nil =>
        rw [lines_nil, List.length_nil] at room
        cases type : node.type with
        | file =>
          have other := fits [] node rfl type
          rw [length_lines_singleton, length_line_file type] at other
          rw [length_line_file type] at room
          omega
        | dir =>
          rw [length_line_dir type] at room
          omega
      | cons second others =>
        rw [lines_cons, List.length_append] at room
        have first := length_line node
        have more := length_line second
        omega
    rw [greedy, if_neg here, ih (by omega)]
    intro front last shape file
    have other := fits (node :: front) last (by rw [shape, List.cons_append]) file
    rwa [lines_cons, List.length_append, ← Nat.add_assoc] at other

/-- The last file is left out when there is no more than its line and the
terminator. -/
theorem greedy_tight {front : List FsNode} (file : node.type = .file) (tight : (lines (front ++ [node])).length + 1 = size) :
    greedy size 0 (front ++ [node]) = front := by
  rw [lines_append, List.length_append, length_lines_singleton, length_line_file file] at tight
  rw [greedy_append (by omega), greedy, if_pos (by omega), List.append_nil]

end Greedy

section Loop

theorem extends_listEntry (node : FsNode) (out : Output) : out.Extends (line node) (listEntry node out) := by
  cases type : node.type with
  | file =>
    simp only [listEntry, line, type, reduceCtorEq, ↓reduceIte]
    exact ((Output.extends_append out node.name).trans (Output.extends_put _ lineFeed)).terminate
  | dir =>
    simp only [listEntry, line, type, ↓reduceIte]
    have opened := (Output.extends_put out bracketOpen).trans (Output.extends_append _ node.name)
    have closed := (opened.trans (Output.extends_put _ bracketClose)).trans (Output.extends_put _ lineFeed)
    have shape : [bracketOpen] ++ node.name ++ [bracketClose] ++ [lineFeed] =
        bracketOpen :: node.name ++ [bracketClose, lineFeed] := by
      simp
    rw [shape] at closed
    exact closed.terminate

theorem listEntry_ends (node : FsNode) (out : Output) :
    (listEntry node out).buffer (listEntry node out).pos = 0 ∧ (listEntry node out).pos ∈ (listEntry node out).written :=
  ⟨Output.terminate_ends _, Output.mem_terminate _⟩

/-- The loop writes the lines of the children that fit, and keeps a terminator at
its position. -/
theorem listNodes_spec (fs : RamFs) (idx : Index) (size : Nat) (turns : List Index) {out : Output}
    (ends : out.buffer out.pos = 0 ∧ out.pos ∈ out.written) :
    let shown := greedy size out.pos
      ((turns.filter fun i => (fs.nodes i).used && (fs.nodes i).parentIdx == idx && i != idx).map fs.nodes)
    let result := fs.listNodes idx size turns out
    out.Extends (lines shown) result ∧ result.buffer result.pos = 0 ∧ result.pos ∈ result.written := by
  induction turns generalizing out with
  | nil => exact ⟨.refl out, ends⟩
  | cons i rest ih =>
    dsimp only
    rw [listNodes]
    cases listed : (fs.nodes i).used && (fs.nodes i).parentIdx == idx && i != idx with
    | false =>
      rw [List.filter_cons, listed, if_neg (by simp), if_neg (by simp)]
      exact ih ends
    | true =>
      rw [List.filter_cons, listed, if_pos rfl, if_pos rfl, List.map_cons, greedy]
      dsimp only
      split
      · exact ⟨.refl out, ends⟩
      · have entry := extends_listEntry (fs.nodes i) out
        obtain ⟨more, last⟩ := ih (listEntry_ends (fs.nodes i) out)
        rw [entry.pos] at more
        exact ⟨entry.trans more, last⟩

end Loop

/-- What `fs_list_dir` leaves for a directory. -/
theorem listDir_spec {path : CString} (found : fs.listTarget path = .ok idx) (dir : (fs.nodes idx).type = .dir)
    (buffer : Bytes) (size : Nat) : ∃ out, fs.listDir path buffer size = ((out.pos : Int), out) ∧
      (Output.mk buffer 0 []).terminate.Extends (lines (greedy size 0 (fs.children idx))) out ∧
      out.buffer out.pos = 0 ∧ out.pos ∈ out.written := by
  refine ⟨_, ?_, listNodes_spec fs idx size indices ⟨Output.terminate_ends _, Output.mem_terminate _⟩⟩
  simp only [listDir, found, dir, ne_eq, not_true, ↓reduceIte]

/-- Listing a directory stays in its buffer and shows what fits exactly when no
line ends in the wrong place. -/
theorem list_dir_faithful_iff (fs : RamFs) (path : CString) (idx : Index) (buffer : Bytes) (size : Nat) (room : 1 ≤ size)
    (found : fs.listTarget path = .ok idx) (dir : (fs.nodes idx).type = .dir) :
    Listed (fs.children idx) size (fs.listDir path buffer size) ↔ ListFits (fs.children idx) size := by
  obtain ⟨out, result, writes, ends, written⟩ := listDir_spec found dir buffer size
  have pos : out.pos = (lines (greedy size 0 (fs.children idx))).length := by
    rw [writes.pos, Output.terminate_pos, Nat.zero_add]
  rw [result]
  generalize fs.children idx = nodes at *
  constructor
  · rintro ⟨inside, shown, _, length, _, _, whole⟩
    have limit := inside out.pos written
    rw [Int.natCast_inj] at length
    constructor
    · intro front node back shape type full
      -- the lines before it leave room for it, and the terminator comes behind the buffer
      rw [lines_append, List.length_append, length_lines_singleton, length_line_dir type] at full
      rw [pos, shape, greedy_append (by omega), lines_append, List.length_append, greedy, if_neg (by omega), lines_cons,
        List.length_append, length_line_dir type] at limit
      omega
    · intro front node shape type tight
      have complete := whole (by omega)
      rw [shape] at tight
      rw [shape, greedy_tight type tight] at pos
      rw [complete, shape, lines_append, List.length_append, length_lines_singleton, length_line_file type] at length
      omega
  · intro fits
    have limit : out.pos < size := by
      have inside := @greedy_inside nodes size 0 room fun front node back shape type => by
        rw [Nat.zero_add]
        exact fits.dirs front node back shape type
      omega
    constructor
    · intro index member
      rcases writes.written index member with first | within
      · rcases List.mem_cons.mp first with rfl | none_before
        · exact room
        · cases none_before
      · exact Nat.lt_of_le_of_lt within limit
    · refine ⟨greedy size 0 nodes, greedy_prefix size 0 nodes, congrArg Int.ofNat pos, ?_, pos ▸ ends, ?_⟩
      · intro place bound
        have text := writes.text place bound
        rwa [Output.terminate_pos, Nat.zero_add] at text
      · intro short
        refine greedy_whole (by omega) fun front node shape type => ?_
        rw [Nat.zero_add]
        exact fits.last front node shape type

theorem list_dir_faithful_five :
    Listed ((init.createDir letterA).2.children 0) 5 ((init.createDir letterA).2.listDir ⟨[slash], by decide⟩ Bytes.zero 5) ↔
      ListFits ((init.createDir letterA).2.children 0) 5 :=
  list_dir_faithful_iff _ ⟨[slash], by decide⟩ 0 Bytes.zero 5 (by decide) rfl rfl

/-- The line of a directory fills the buffer, and the terminator comes behind it. -/
theorem list_dir_overruns : ¬ ∀ (fs : RamFs) path idx buffer size, Reachable Step init fs → 1 ≤ size →
    fs.listTarget path = .ok idx → (fs.nodes idx).type = .dir →
    Listed (fs.children idx) size (fs.listDir path buffer size) := by
  intro always
  have run : Reachable Step init (init.createDir letterA).2 := .single ⟨.createDir letterA, trivial, _, rfl⟩
  have listed := always _ ⟨[slash], by decide⟩ 0 Bytes.zero 4 run (by decide) rfl rfl
  have written : 4 ∈ ((init.createDir letterA).2.listDir ⟨[slash], by decide⟩ Bytes.zero 4).2.written := by decide +kernel
  exact absurd (listed.inside 4 written) (by decide)

end MexOS.Fs.RamFs
