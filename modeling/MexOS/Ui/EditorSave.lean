import MexOS.Fs.RamContent
import MexOS.Fs.StoredBytes
import MexOS.Ui.EditorSession

/-! What `editor_save` answers, and what `fs_write` has stored: the one takes 0
for success, the other answers the number of bytes. -/

namespace MexOS.Ui.Editor

open MexOS.Machine MexOS.Fs

/-- The length of the text as `editor_save` passes it on. -/
def textLength (editor : Editor) : Word := BitVec.ofNat 32 editor.buffer.text.length

/-- `fs_write` does not fail, and afterwards the complete text is in the file: it is
the content of the node in memory, or the beginning of the file on the disk. -/
def TextStored (editor : Editor) (ambient : Ambient) : Prop :=
  ∃ count files, editor.files.write editor.filename ambient editor.buffer.bytes editor.textLength = some (count, files) ∧
    0 ≤ count ∧
      if editor.files.diskEnabled then
        ∃ ino disk, editor.files.resolveToDiskfsInode ambient.walked editor.filename = some (ino, disk) ∧
          files.disk.FileBegins (BitVec.ofInt 32 ino) editor.buffer.bytes editor.buffer.text.length
      else ∃ idx, editor.files.ram.resolveFullPath editor.filename = .ok idx ∧
        (files.ram.nodes idx).content = editor.buffer.text

/-- What `editor_save` answers is true, whenever it returns. -/
def SaveTruthful (editor : Editor) (ambient : Ambient) : Prop :=
  ∀ ret after, editor.save ambient = some (ret, after) →
    (editor.TextStored ambient → ret = 0 ∧ after.modified = false) ∧
    (¬ editor.TextStored ambient → ret < 0 ∧ after.modified = editor.modified)

/-- The path leads to a file in memory. -/
def LeadsToFile (ram : RamFs) (path : CString) : Prop :=
  ∃ idx, ram.resolveFullPath path = .ok idx ∧ (ram.nodes idx).type = .file

/-- The text is not empty, and either nothing keeps it from the file, and the count
is not taken for success, or nothing is stored, and 0 is. -/
def SaveMisreports (editor : Editor) (ambient : Ambient) : Prop :=
  editor.buffer.text ≠ [] ∧
    if editor.files.diskEnabled then
      ∃ ino disk, editor.files.resolveToDiskfsInode ambient.walked editor.filename = some (ino, disk) ∧ 0 ≤ ino ∧
        (disk.WritesText (BitVec.ofInt 32 ino) editor.buffer.text.length ∨ disk.WritesNone (BitVec.ofInt 32 ino))
    else LeadsToFile editor.files.ram editor.filename

/-- A property of the inode that the path leads to on the disk, if it leads to one. -/
def OfInode (editor : Editor) (ambient : Ambient) (property : Diskfs → Word → Prop) : Prop :=
  ∀ ino disk, editor.files.resolveToDiskfsInode ambient.walked editor.filename = some (ino, disk) → 0 ≤ ino →
    property disk (BitVec.ofInt 32 ino)

/-- Its record ends inside its sector. -/
def SlotFits (editor : Editor) (ambient : Ambient) : Prop := editor.OfInode ambient fun _ ino => ino.toNat % 4 ≠ 3

/-- Its blocks belong to it alone. -/
def BlocksOwned (editor : Editor) (ambient : Ambient) : Prop := editor.OfInode ambient Diskfs.OwnsBlocks

/-- The walk along the path leaves no buffer, and no search the block bitmap. -/
def WalkEnds (editor : Editor) (ambient : Ambient) : Prop :=
  (∃ found, editor.files.resolveToDiskfsInode ambient.walked editor.filename = some found) ∧
    editor.OfInode ambient fun disk _ => disk.superblock.totalBlocks.toNat ≤ maxBlocks

section Save

variable {editor : Editor} {ambient : Ambient} {count : Int} {files : FileSystem}

theorem textLength_toNat (editor : Editor) : editor.textLength.toNat = editor.buffer.text.length := by
  have short := editor.buffer.terminated
  change editor.buffer.text.length < 4096 at short
  rw [textLength, BitVec.toNat_ofNat]
  omega

/-- What `editor_save` makes of the answer of `fs_write`. -/
def saved (editor : Editor) (written : Int × FileSystem) : Int × Editor :=
  if written.1 = 0 then (0, { editor with files := written.2, modified := false }.write (ascii "Saved\n"))
  else (-1, { editor with files := written.2 }.write (ascii "Error: Failed to save file\n"))

theorem save_eq (editor : Editor) (ambient : Ambient) : editor.save ambient =
    (editor.files.write editor.filename ambient editor.buffer.bytes editor.textLength).map editor.saved := by
  rw [save, textLength]
  cases editor.files.write editor.filename ambient editor.buffer.bytes (BitVec.ofNat 32 editor.buffer.text.length) with
  | none => rfl
  | some written =>
    simp only [Option.bind_eq_bind, Option.bind_some, Option.map_some, saved]
    split <;> rfl

theorem saved_success {written : Int × FileSystem} (zero : written.1 = 0) :
    (editor.saved written).1 = 0 ∧ (editor.saved written).2.modified = false := by
  rw [saved, if_pos zero]
  exact ⟨rfl, rfl⟩

theorem saved_failure {written : Int × FileSystem} (other : written.1 ≠ 0) :
    (editor.saved written).1 = -1 ∧ (editor.saved written).2.modified = editor.modified := by
  rw [saved, if_neg other]
  exact ⟨rfl, rfl⟩

theorem saved_files (written : Int × FileSystem) : (editor.saved written).2.files = written.2 := by
  unfold saved
  split <;> rfl

/-- The answer is true where the count is 0 exactly if the text is stored. -/
theorem saveTruthful_iff_write : editor.SaveTruthful ambient ↔
    ∀ count files, editor.files.write editor.filename ambient editor.buffer.bytes editor.textLength = some (count, files) →
      (count = 0 ↔ editor.TextStored ambient) := by
  rw [SaveTruthful, save_eq]
  constructor
  · intro truthful count files call
    obtain ⟨all, part⟩ := truthful (editor.saved (count, files)).1 (editor.saved (count, files)).2 (by rw [call]; rfl)
    constructor
    · intro zero
      by_contra other
      have failed := (part other).1
      rw [(@saved_success editor (count, files) zero).1] at failed
      exact absurd failed (by decide)
    · intro stored
      by_contra other
      have succeeded := (all stored).1
      rw [(@saved_failure editor (count, files) other).1] at succeeded
      exact absurd succeeded (by decide)
  · intro same ret after result
    obtain ⟨written, call, answer⟩ := Option.map_eq_some_iff.mp result
    have agree := same written.1 written.2 call
    constructor
    · intro stored
      have success := @saved_success editor written (agree.mpr stored)
      rwa [answer] at success
    · intro lost
      have failure := @saved_failure editor written (mt agree.mp lost)
      rw [answer] at failure
      exact ⟨failure.1.trans_lt (by decide), failure.2⟩

theorem ram_write_fails {ram : RamFs} {path : CString} (nowhere : ¬ LeadsToFile ram path) (data : Bytes) (size : Nat) :
    (ram.write path data size).1 < 0 := by
  rw [RamFs.write]
  cases leads : ram.resolveFullPath path with
  | error _ => exact (by decide : FsError.notFound.code < 0)
  | ok idx =>
    dsimp only
    rw [if_pos fun file => nowhere ⟨idx, leads, file⟩]
    exact (by decide : FsError.isDir.code < 0)

/-- In memory the text is stored exactly in a file. -/
theorem textStored_memory_iff (memory : editor.files.diskEnabled = false) :
    (∃ count files, editor.files.write editor.filename ambient editor.buffer.bytes editor.textLength = some (count, files) ∧
      (count = 0 ↔ editor.buffer.text = [] ∧ LeadsToFile editor.files.ram editor.filename)) ∧
    (editor.TextStored ambient ↔ LeadsToFile editor.files.ram editor.filename) := by
  have short : editor.buffer.text.length < 4096 := editor.buffer.terminated
  rw [TextStored, FileSystem.write, memory, textLength_toNat]
  simp only [Bool.false_eq_true, ↓reduceIte, Option.some.injEq, Prod.mk.injEq]
  by_cases leads : LeadsToFile editor.files.ram editor.filename
  · obtain ⟨idx, resolved, file⟩ := leads
    have stored := (RamFs.byteString_of_file resolved file).write editor.buffer.bytes editor.buffer.text.length
    rw [Nat.min_eq_left (by rw [fsMaxFileSize]; omega)] at stored
    refine ⟨⟨_, _, ⟨rfl, rfl⟩, ?_⟩, iff_of_true ?_ ⟨idx, resolved, file⟩⟩
    · rw [stored.1, Int.natCast_eq_zero, List.length_eq_zero_iff]
      exact (and_iff_left ⟨idx, resolved, file⟩).symm
    · refine ⟨_, _, ⟨rfl, rfl⟩, ?_, idx, resolved, ?_⟩
      · rw [stored.1]
        exact Int.natCast_nonneg _
      · exact stored.2.trans (Bytes.toList_text _ _)
  · have failed := ram_write_fails leads editor.buffer.bytes editor.buffer.text.length
    refine ⟨⟨_, _, ⟨rfl, rfl⟩, iff_of_false (by omega) fun both => leads both.2⟩, iff_of_false ?_ leads⟩
    rintro ⟨_, _, ⟨rfl, _⟩, natural, _⟩
    omega

theorem saveTruthful_memory_iff (memory : editor.files.diskEnabled = false) :
    editor.SaveTruthful ambient ↔ ¬ editor.SaveMisreports ambient := by
  obtain ⟨⟨count, files, call, zero⟩, stored⟩ := @textStored_memory_iff editor ambient memory
  rw [saveTruthful_iff_write, SaveMisreports, memory, stored, call]
  simp only [Bool.false_eq_true, ↓reduceIte, Option.some.injEq, Prod.mk.injEq, and_imp]
  constructor
  · rintro truthful ⟨nonempty, leads⟩
    have none_stored := (truthful count files rfl rfl).mpr leads
    exact nonempty (zero.mp none_stored).1
  · rintro sound _ _ rfl rfl
    rw [zero]
    exact ⟨fun both => both.2, fun leads => ⟨not_not.mp fun nonempty => sound ⟨nonempty, leads⟩, leads⟩⟩

/-- What `fs_write` does when it goes to the disk and does not fail. -/
theorem disk_write_iff {fs : FileSystem} (enabled : fs.diskEnabled = true) {path : CString} {data : Bytes} {size : Word}
    (natural : 0 ≤ count) :
    fs.write path ambient data size = some (count, files) ↔
      ∃ ino disk after, fs.resolveToDiskfsInode ambient.walked path = some (ino, disk) ∧ 0 ≤ ino ∧
        disk.write (BitVec.ofInt 32 ino) data 0 size ambient.stored = some (count, after) ∧
        files = { fs with disk := after.sync.2 } := by
  rw [FileSystem.write, if_pos enabled]
  constructor
  · intro call
    obtain ⟨resolved, resolve, call⟩ := Option.bind_eq_some_iff.mp call
    dsimp only at call
    split at call
    · cases call
      exact absurd natural (by decide)
    · next found =>
      obtain ⟨written, write, call⟩ := Option.bind_eq_some_iff.mp call
      cases call
      exact ⟨resolved.1, resolved.2, written.2, resolve, not_lt.mp found, write, rfl⟩
  · rintro ⟨ino, disk, after, resolve, found, write, rfl⟩
    rw [resolve]
    simp only [Option.bind_eq_bind, Option.bind_some, Int.not_lt.mpr found, ↓reduceIte, write]
    rfl

/-- A text that is stored on the disk. -/
theorem textStored_disk_iff (enabled : editor.files.diskEnabled = true) : editor.TextStored ambient ↔
    ∃ ino disk count after, editor.files.resolveToDiskfsInode ambient.walked editor.filename = some (ino, disk) ∧ 0 ≤ ino ∧
      disk.write (BitVec.ofInt 32 ino) editor.buffer.bytes 0 editor.textLength ambient.stored = some (count, after) ∧
      0 ≤ count ∧ after.sync.2.FileBegins (BitVec.ofInt 32 ino) editor.buffer.bytes editor.textLength.toNat := by
  rw [TextStored, textLength_toNat]
  simp only [enabled, ↓reduceIte]
  constructor
  · rintro ⟨count, files, call, natural, again, other, resolved, begins⟩
    rw [disk_write_iff enabled natural] at call
    obtain ⟨ino, disk, after, resolve, found, write, rfl⟩ := call
    obtain ⟨rfl, rfl⟩ := Prod.mk.inj (Option.some.inj (resolve.symm.trans resolved))
    exact ⟨ino, disk, count, after, resolve, found, write, natural, begins⟩
  · rintro ⟨ino, disk, count, after, resolve, found, write, natural, begins⟩
    refine ⟨count, _, (disk_write_iff enabled natural).mpr ⟨ino, disk, after, resolve, found, write, rfl⟩, natural, ino, disk,
      resolve, begins⟩

/-- A text that is not empty is stored on the disk only if nothing keeps it from the
file, and its length is answered then. -/
theorem misreports_of_textStored (enabled : editor.files.diskEnabled = true) (nonempty : editor.buffer.text ≠ [])
    (stored : editor.TextStored ambient) : editor.SaveMisreports ambient ∧ ∃ files,
      editor.files.write editor.filename ambient editor.buffer.bytes editor.textLength =
        some ((editor.buffer.text.length : Int), files) := by
  have length := editor.textLength_toNat
  have short : editor.buffer.text.length < 4096 := editor.buffer.terminated
  have positive : 0 < editor.buffer.text.length := List.length_pos_iff.mpr nonempty
  obtain ⟨ino, disk, count, after, resolve, found, write, natural, begins⟩ := (textStored_disk_iff enabled).mp stored
  obtain ⟨writes, rfl⟩ := Diskfs.writesText_of_covers (by omega) (by omega) natural write begins.covers
  have call := (disk_write_iff enabled natural).mpr ⟨ino, disk, after, resolve, found, write, rfl⟩
  rw [length] at writes call
  refine ⟨⟨nonempty, ?_⟩, _, call⟩
  rw [if_pos enabled]
  exact ⟨ino, disk, resolve, found, .inl writes⟩

/-- With an empty text 0 bytes are all. -/
theorem saveTruthful_of_empty (enabled : editor.files.diskEnabled = true) (empty : editor.buffer.text = []) :
    editor.SaveTruthful ambient := by
  have length : editor.textLength.toNat = 0 := by rw [textLength_toNat, empty, List.length_nil]
  rw [saveTruthful_iff_write]
  intro count files call
  rw [textStored_disk_iff enabled, length]
  constructor
  · rintro rfl
    obtain ⟨ino, disk, after, resolve, found, write, _⟩ := (disk_write_iff enabled (Int.le_refl _)).mp call
    exact ⟨ino, disk, 0, after, resolve, found, write, Int.le_refl _, .nothing _ _ _⟩
  · rintro ⟨ino, disk, amount, after, resolve, found, write, natural, _⟩
    have same := (disk_write_iff enabled natural).mpr ⟨ino, disk, after, resolve, found, write, rfl⟩
    have upper := Diskfs.write_within (by omega) natural write
    rw [call] at same
    cases same
    omega

theorem saveTruthful_of_sound (enabled : editor.files.diskEnabled = true) (slot : editor.SlotFits ambient)
    (sound : ¬ editor.SaveMisreports ambient) : editor.SaveTruthful ambient := by
  have length := editor.textLength_toNat
  have short : editor.buffer.text.length < 4096 := editor.buffer.terminated
  by_cases empty : editor.buffer.text = []
  · exact saveTruthful_of_empty enabled empty
  have positive : 0 < editor.buffer.text.length := List.length_pos_iff.mpr empty
  rw [saveTruthful_iff_write]
  intro count files call
  refine iff_of_false ?_ fun stored => sound (misreports_of_textStored enabled empty stored).1
  rintro rfl
  obtain ⟨ino, disk, after, resolve, found, write, _⟩ := (disk_write_iff enabled (Int.le_refl _)).mp call
  have stuck := (Diskfs.write_none_iff (slot ino disk resolve found) (by omega) (by omega)).mp ⟨after, write⟩
  refine sound ⟨empty, ?_⟩
  rw [if_pos enabled]
  exact ⟨ino, disk, resolve, found, .inr stuck⟩

theorem not_saveTruthful_of_misreports (enabled : editor.files.diskEnabled = true) (slot : editor.SlotFits ambient)
    (own : editor.BlocksOwned ambient) (misreports : editor.SaveMisreports ambient) : ¬ editor.SaveTruthful ambient := by
  have length := editor.textLength_toNat
  have short : editor.buffer.text.length < 4096 := editor.buffer.terminated
  obtain ⟨nonempty, wrong⟩ := misreports
  have positive : 0 < editor.buffer.text.length := List.length_pos_iff.mpr nonempty
  rw [if_pos enabled] at wrong
  rw [saveTruthful_iff_write]
  intro truthful
  obtain ⟨ino, disk, resolve, found, writes | stuck⟩ := wrong
  · rw [← length] at writes
    obtain ⟨after, write, begins⟩ := Diskfs.write_of_writesText (slot ino disk resolve found) (by omega) (by omega)
      (own ino disk resolve found) writes editor.buffer.bytes ambient.stored
    have natural := Int.natCast_nonneg editor.textLength.toNat
    have call := (disk_write_iff enabled natural).mpr ⟨ino, disk, after, resolve, found, write, rfl⟩
    have zero := (truthful _ _ call).mpr ((textStored_disk_iff enabled).mpr ⟨ino, disk, _, after, resolve, found, write, natural,
      begins⟩)
    omega
  · obtain ⟨after, write⟩ := (@Diskfs.write_none_iff disk (BitVec.ofInt 32 ino) editor.textLength ambient.stored
      editor.buffer.bytes (slot ino disk resolve found) (by omega) (by omega)).mpr stuck
    have call := (disk_write_iff enabled (Int.le_refl 0)).mpr ⟨ino, disk, after, resolve, found, write, rfl⟩
    obtain ⟨files, again⟩ := (misreports_of_textStored enabled nonempty ((truthful _ _ call).mp rfl)).2
    rw [call] at again
    simp only [Option.some.injEq, Prod.mk.injEq] at again
    omega

theorem save_returns (slot : editor.SlotFits ambient) (ends : editor.WalkEnds ambient) :
    ∃ ret after, editor.save ambient = some (ret, after) := by
  obtain ⟨⟨⟨ino, disk⟩, resolve⟩, total⟩ := ends
  obtain ⟨written, call⟩ : ∃ written,
      editor.files.write editor.filename ambient editor.buffer.bytes editor.textLength = some written := by
    rw [FileSystem.write]
    split
    · rw [resolve]
      simp only [Option.bind_eq_bind, Option.bind_some, Option.pure_def]
      split
      · exact ⟨_, rfl⟩
      · next found =>
        obtain ⟨ret, after, write⟩ := Diskfs.write_answers (slot ino disk resolve (not_lt.mp found))
          (total ino disk resolve (not_lt.mp found)) editor.buffer.bytes 0 editor.textLength ambient.stored
        rw [write]
        exact ⟨_, rfl⟩
    · exact ⟨_, rfl⟩
  rw [save_eq, call]
  exact ⟨_, _, rfl⟩

/-- What `editor_save` answers is true when `fs_write` neither stores all of a text
that is not empty nor finds no room for its first byte, and only then if the blocks
of the file belong to it alone. -/
theorem save_truthful_iff (editor : Editor) (ambient : Ambient) (slot : editor.SlotFits ambient) :
    (¬ editor.SaveMisreports ambient → editor.SaveTruthful ambient) ∧
      (editor.BlocksOwned ambient → (editor.SaveTruthful ambient ↔ ¬ editor.SaveMisreports ambient)) ∧
      (editor.WalkEnds ambient → ∃ ret after, editor.save ambient = some (ret, after)) := by
  by_cases enabled : editor.files.diskEnabled = true
  · refine ⟨saveTruthful_of_sound enabled slot, fun own => ⟨?_, saveTruthful_of_sound enabled slot⟩, save_returns slot⟩
    exact fun truthful misreports => not_saveTruthful_of_misreports enabled slot own misreports truthful
  · have memory := @saveTruthful_memory_iff editor ambient (by simpa using enabled)
    exact ⟨memory.mpr, fun _ => memory, save_returns slot⟩

/-- A new file, and a line that has been typed. -/
def firstLine : Editor :=
  { fresh with
    filename := RamFs.letterA
    files := { fresh.files with ram := (RamFs.init.createFile RamFs.letterA).2 } }.addLine (CString.ofBytes (ascii "A"))

theorem firstLine_length : firstLine.buffer.text.length = 2 := by decide +kernel

/-- The line is stored, and `editor_save` says that it is not. -/
theorem first_line_misreported : ¬ firstLine.SaveTruthful Ambient.zero := by
  have nonempty : firstLine.buffer.text ≠ [] := List.ne_nil_of_length_pos (by rw [firstLine_length]; decide)
  have leads : LeadsToFile firstLine.files.ram firstLine.filename := by
    have check : ((firstLine.files.ram.resolveFullPath firstLine.filename).toOption.any fun idx =>
        decide ((firstLine.files.ram.nodes idx).type = .file)) = true := by decide +kernel
    rw [LeadsToFile]
    generalize firstLine.files.ram.resolveFullPath firstLine.filename = result at check ⊢
    generalize firstLine.files.ram.nodes = nodes at check ⊢
    cases result with
    | error _ => cases check
    | ok idx => exact ⟨idx, rfl, of_decide_eq_true check⟩
  have memory : firstLine.files.diskEnabled = false := by decide +kernel
  rw [saveTruthful_memory_iff memory, SaveMisreports, memory, not_not]
  exact ⟨nonempty, leads⟩

/-- The line on a drive, in the file of one byte. -/
def diskLine : Editor :=
  { firstLine with
    filename := CString.ofBytes [slash]
    files := { firstLine.files with
      disk := Diskfs.lone 0
      diskEnabled := true } }

theorem diskLine_resolve : diskLine.files.resolveToDiskfsInode Ambient.zero.walked diskLine.filename = some (0, Diskfs.lone 0) := by
  rw [FileSystem.resolveToDiskfsInode, if_neg (by decide), if_pos (by decide)]
  rfl

/-- Nothing keeps the line from the file, so it is stored, and `editor_save` says
that it is not. -/
theorem save_truthful_iff_disk : diskLine.SaveMisreports Ambient.zero ∧ ¬ diskLine.SaveTruthful Ambient.zero := by
  have found (ino : Int) (disk : Diskfs)
      (resolve : diskLine.files.resolveToDiskfsInode Ambient.zero.walked diskLine.filename = some (ino, disk)) :
      ino = 0 ∧ disk = Diskfs.lone 0 := by
    rw [diskLine_resolve] at resolve
    cases resolve
    exact ⟨rfl, rfl⟩
  have slot : diskLine.SlotFits Ambient.zero := by
    intro ino disk resolve _
    obtain ⟨rfl, _⟩ := found ino disk resolve
    decide
  obtain ⟨mid, opened⟩ := @Diskfs.opened (Diskfs.lone 0) 0 (Diskfs.lone_working 0) (by decide) (.inl (by decide))
  have pointer : ((Diskfs.lone 0).record (Diskfs.lone 0).mountedDrive 0).block 0 = 1 := by decide +kernel
  have others : ∀ index < directBlocks, index ≠ 0 →
      ((Diskfs.lone 0).record (Diskfs.lone 0).mountedDrive 0).block index = 0 := by decide +kernel
  have first : ∀ index < directBlocks, ((Diskfs.lone 0).record (Diskfs.lone 0).mountedDrive 0).block index ≠ 0 → index = 0 :=
    fun index bound nonzero => not_not.mp fun other => nonzero (others index bound other)
  have owned : diskLine.BlocksOwned Ambient.zero := by
    intro ino disk resolve _ inode other load
    obtain ⟨rfl, rfl⟩ := found ino disk resolve
    obtain ⟨loaded, rfl⟩ := Prod.mk.inj (Option.some.inj (opened.loaded.symm.trans load))
    rw [← Except.ok.inj loaded]
    refine ⟨fun index bound nonzero => ?_, fun index bound another upper nonzero same => ?_⟩
    · rw [first index bound nonzero, pointer, Diskfs.taken, opened.blockBitmap]
      decide
    · rw [first index bound nonzero, first another upper (same ▸ nonzero)]
  have misreports : diskLine.SaveMisreports Ambient.zero := by
    have length : diskLine.buffer.text.length = 2 := by decide +kernel
    have nonempty : diskLine.buffer.text ≠ [] := List.ne_nil_of_length_pos (by rw [length]; decide)
    have whole : Diskfs.holes ((Diskfs.lone 0).record (Diskfs.lone 0).mountedDrive 0) 0 ((2 - 1) / 512) = 0 := by
      refine Diskfs.holes_eq_zero_iff.mpr fun index _ upper => ?_
      obtain rfl : index = 0 := by omega
      rw [pointer]
      decide
    refine ⟨nonempty, ?_⟩
    have enabled : diskLine.files.diskEnabled = true := rfl
    rw [if_pos enabled, length]
    refine ⟨0, Diskfs.lone 0, diskLine_resolve, Int.le_refl _, .inl ⟨by decide, _, mid, opened.loaded, ⟨?_, ?_, ?_⟩, .inr whole,
      .inl fun _ _ => opened.working.works _⟩⟩
    · rw [opened.mountedDrive]
      exact opened.working.driveExists
    · exact fun _ _ => opened.working.works _
    · exact whole.trans_le (Nat.zero_le _)
  exact ⟨misreports, mt ((save_truthful_iff diskLine Ambient.zero slot).2.1 owned).mp (not_not.mpr misreports)⟩

end Save

section Open

variable {editor : Editor} {filename : CString} {idx : Index}

/-- The buffer for the file name cuts a path where the file system does. -/
theorem resolveFullPath_cut (ram : RamFs) (path : CString) :
    ram.resolveFullPath (CString.ofBytes (path.bytes.take 127)) = ram.resolveFullPath path := by
  have bytes : (CString.ofBytes (path.bytes.take 127)).bytes = path.bytes.take 127 := by
    rw [CString.ofBytes, List.takeWhile_eq_self_iff]
    intro byte member
    have nonzero : byte ≠ 0 := fun zero => path.terminated (zero ▸ List.mem_of_mem_take member)
    exact decide_eq_true nonzero
  have empty : path.bytes.take 127 = [] ↔ path.bytes = [] := by simp
  have root : path.bytes.take 127 = [slash] ↔ path.bytes = [slash] := by
    constructor
    · intro cut
      have short : path.bytes.length ≤ 127 := by
        have size := congrArg List.length cut
        rw [List.length_take, List.length_singleton] at size
        omega
      rwa [List.take_of_length_le short] at cut
    · intro whole
      rw [whole]
      rfl
  simp only [RamFs.resolveFullPath, RamFs.resolvePath, bytes, empty, root, fsMaxPath, List.take_take]
  rfl

/-- What `editor_open` makes of a file in memory: up to 4095 bytes of it, and no
more than the first zero. -/
theorem openFile_memory (ambient : Ambient) (mode : Byte) (memory : editor.files.diskEnabled = false)
    (leads : editor.files.ram.resolveFullPath filename = .ok idx) (file : (editor.files.ram.nodes idx).type = .file) :
    ∃ opened, editor.openFile ambient (some filename) mode = some (0, opened) ∧ opened.files = editor.files ∧
      opened.filename = CString.ofBytes (filename.bytes.take 127) ∧
      opened.buffer.text = ((editor.files.ram.nodes idx).content.take 4095).takeWhile fun byte => byte ≠ 0 := by
  obtain ⟨count, bytes⟩ := (RamFs.byteString_of_file leads file).read EditorBuffer.zero.bytes 4095
  have found : editor.files.fsExists filename = true := by
    rw [FileSystem.fsExists, RamFs.fsExists, leads]
    rfl
  have noDir : editor.files.isDir filename = false := by
    rw [FileSystem.isDir, RamFs.isDir, leads]
    simp [file]
  have read : editor.files.read filename ambient EditorBuffer.zero.bytes 4095 =
      some ((editor.files.ram.read filename EditorBuffer.zero.bytes 4095).1,
        (editor.files.ram.read filename EditorBuffer.zero.bytes 4095).2, editor.files) := by
    rw [FileSystem.read, if_neg (by simp [memory])]
    rfl
  generalize editor.files.ram.read filename EditorBuffer.zero.bytes 4095 = result at *
  have natural : ¬ result.1 < 0 := by omega
  have inside : result.1.toNat < editorMaxFileSize := by
    rw [editorMaxFileSize]
    omega
  have opens : editor.openFile ambient (some filename) mode = some (0, { editor with
      filename := CString.ofBytes (filename.bytes.take 127)
      mode
      modified := false
      bufferSize := result.1.toNat
      buffer := EditorBuffer.terminate result.2 inside }) := by
    rw [openFile]
    simp only [found, noDir, read, ↓reduceIte, Bool.false_eq_true, Option.bind_eq_bind, Option.bind_some, natural]
    rw [dif_pos inside]
    rfl
  refine ⟨_, opens, rfl, rfl, ?_⟩
  have length : result.1.toNat = min 4095 (editor.files.ram.nodes idx).content.length := by omega
  rw [terminate_text, length, Bytes.text, ← bytes, Bytes.toList]
  simp only [Nat.zero_add]

/-- What `editor_save` leaves of a file in memory. -/
theorem save_memory (ambient : Ambient) (memory : editor.files.diskEnabled = false)
    (leads : editor.files.ram.resolveFullPath editor.filename = .ok idx) (file : (editor.files.ram.nodes idx).type = .file) :
    ∃ ret after, editor.save ambient = some (ret, after) ∧ (after.files.ram.nodes idx).content = editor.buffer.text := by
  have short : editor.buffer.text.length < 4096 := editor.buffer.terminated
  obtain ⟨_, content⟩ := (RamFs.byteString_of_file leads file).write editor.buffer.bytes editor.buffer.text.length
  have write : editor.files.write editor.filename ambient editor.buffer.bytes editor.textLength =
      some ((editor.files.ram.write editor.filename editor.buffer.bytes editor.buffer.text.length).1,
        { editor.files with
          ram := (editor.files.ram.write editor.filename editor.buffer.bytes editor.buffer.text.length).2 }) := by
    rw [FileSystem.write, if_neg (by simp [memory]), textLength_toNat]
  rw [Nat.min_eq_left (by rw [fsMaxFileSize]; omega)] at content
  have text : editor.buffer.bytes.toList editor.buffer.text.length = editor.buffer.text := Bytes.toList_text _ _
  obtain ⟨⟨ret, after⟩, saves⟩ : ∃ result, editor.save ambient = some result := ⟨_, by rw [save_eq, write]; rfl⟩
  have answer := saves
  rw [save_eq, write, Option.map_some, Option.some.injEq] at answer
  refine ⟨ret, after, saves, ?_⟩
  have files := editor.saved_files ((editor.files.ram.write editor.filename editor.buffer.bytes editor.buffer.text.length).1,
    { editor.files with ram := (editor.files.ram.write editor.filename editor.buffer.bytes editor.buffer.text.length).2 })
  rw [answer] at files
  rw [files, content, text]

theorem takeWhile_take_eq_iff (content : List Byte) :
    (content.take 4095).takeWhile (fun byte => byte ≠ 0) = content ↔ 0 ∉ content ∧ content.length ≤ 4095 := by
  constructor
  · intro same
    have size := congrArg List.length same
    have first := (@List.takeWhile_prefix _ (content.take 4095) fun byte => byte ≠ 0).length_le
    rw [List.length_take] at first
    refine ⟨fun zero => ?_, by omega⟩
    rw [← same] at zero
    have nonzero := List.mem_takeWhile_imp zero
    simp at nonzero
  · rintro ⟨clean, short⟩
    rw [List.take_of_length_le short, List.takeWhile_eq_self_iff]
    intro byte member
    exact decide_eq_true fun zero => clean (zero ▸ member)

/-- A file in memory that is opened and saved keeps its content exactly when it
has no zero byte and at most 4095 bytes. -/
theorem open_save_iff (ambient later : Ambient) (mode : Byte) (memory : editor.files.diskEnabled = false)
    (leads : editor.files.ram.resolveFullPath filename = .ok idx) (file : (editor.files.ram.nodes idx).type = .file) :
    ∃ opened ret after, editor.openFile ambient (some filename) mode = some (0, opened) ∧
      opened.save later = some (ret, after) ∧
      ((after.files.ram.nodes idx).content = (editor.files.ram.nodes idx).content ↔
        0 ∉ (editor.files.ram.nodes idx).content ∧ (editor.files.ram.nodes idx).content.length ≤ 4095) := by
  obtain ⟨opened, opens, files, name, text⟩ := openFile_memory ambient mode memory leads file
  have again : opened.files.ram.resolveFullPath opened.filename = .ok idx := by
    rw [files, name, resolveFullPath_cut, leads]
  obtain ⟨ret, after, saves, content⟩ := save_memory later (files ▸ memory) again (files ▸ file)
  refine ⟨opened, ret, after, opens, saves, ?_⟩
  rw [content, text]
  exact takeWhile_take_eq_iff _

/-- Over one file, with this content. -/
def oneFile (content : List Byte) : Editor :=
  { fresh with
    files := { fresh.files with
      ram := ((RamFs.init.createFile RamFs.letterA).2.write RamFs.letterA (fun place => content.getD place 0)
        content.length).2 } }

theorem open_save_letter : ∃ opened ret after,
    (oneFile [65]).openFile Ambient.zero (some RamFs.letterA) editorModeText = some (0, opened) ∧
      opened.save Ambient.zero = some (ret, after) ∧
      ((after.files.ram.nodes 1).content = ((oneFile [65]).files.ram.nodes 1).content ↔
        0 ∉ ((oneFile [65]).files.ram.nodes 1).content ∧ ((oneFile [65]).files.ram.nodes 1).content.length ≤ 4095) :=
  open_save_iff Ambient.zero Ambient.zero editorModeText rfl (by decide +kernel) (by decide +kernel)

/-- Nothing is left of a file that starts with a zero. -/
theorem open_save_loses_zero : ∃ opened ret after,
    (oneFile [0]).openFile Ambient.zero (some RamFs.letterA) editorModeText = some (0, opened) ∧
      opened.save Ambient.zero = some (ret, after) ∧
      ((oneFile [0]).files.ram.nodes 1).content = [0] ∧ (after.files.ram.nodes 1).content = [] := by
  have leads : (oneFile [0]).files.ram.resolveFullPath RamFs.letterA = .ok 1 := by decide +kernel
  have file : ((oneFile [0]).files.ram.nodes 1).type = .file := by decide +kernel
  have zero : ((oneFile [0]).files.ram.nodes 1).content = [0] := by decide +kernel
  obtain ⟨opened, opens, files, name, text⟩ := openFile_memory Ambient.zero editorModeText rfl leads file
  obtain ⟨ret, after, saves, content⟩ := save_memory Ambient.zero (files ▸ rfl)
    (by rw [files, name, resolveFullPath_cut, leads]) (files ▸ file)
  refine ⟨opened, ret, after, opens, saves, zero, ?_⟩
  rw [content, text, zero]
  rfl

end Open

end MexOS.Ui.Editor
