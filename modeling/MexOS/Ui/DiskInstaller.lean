import MexOS.Fs.EndOfFile
import MexOS.Fs.FailedMount
import MexOS.Ui.Basic

/-! The dialog of `ui/disk_installer.c`. A key that is waited for and never
comes leaves it without a result. -/

namespace MexOS.Ui

open MexOS.Machine MexOS.Fs

inductive DriveType where
  | ide
  | sata
deriving DecidableEq

/-- What the arrays of the dialog hold for a disk that is there. -/
structure DiskSlot where
  driveType : DriveType
  sizeMb : Word
  hasDiskfs : Bool
deriving DecidableEq

/-- A line of the listing. `disk` is the index it is about; it is not shown. -/
structure DiskRow where
  label : Byte
  disk : Nat
  slot : DiskSlot
deriving DecidableEq

/-- What is on the screen. -/
inductive Shown where
  | text (bytes : List Byte)
  | row (row : DiskRow)

/-- A port of `ahci.c` with a SATA disk; `boot` is its first sector, if that can
be read. -/
structure SataDisk where
  sizeSectors : BitVec 64
  boot : Option Bytes

/-- The calls that the dialog makes of `diskfs.c`. -/
inductive DiskCall where
  | mount (drive : Byte)
  | format (drive : Byte)

/-- The index of the disk that `diskfs.c` takes the number for. -/
def DiskCall.disk : DiskCall → Nat
  | mount drive => drive.toNat
  | format drive => drive.toNat

/-- `diskfs.c` with the drives of `ata.c` and their sizes, the ports of `ahci.c`,
and what the dialog has done so far. -/
structure DiskInstaller where
  diskfs : Diskfs
  ataSize : Byte → Word
  ports : Byte → Option SataDisk
  screen : List Shown
  calls : List DiskCall

/-- How the body of the key loop ends. -/
inductive DialogAnswer where
  | returns (ret : Int)
  | restarts
  | continues

namespace DiskInstaller

def write (state : DiskInstaller) (text : List Byte) : DiskInstaller :=
  { state with screen := state.screen ++ [.text text] }

/-- `console_clear` -/
def clear (state : DiskInstaller) : DiskInstaller := { state with screen := [] }

/-- A turn of the first loop. -/
def scanDrive (state : DiskInstaller) (drive : Byte) : Option DiskSlot × DiskInstaller :=
  if state.diskfs.ata.driveExists drive then
    let sizeMb := state.ataSize drive * 512 / (1024 * 1024)
    let (ret, sectorBuf, ata) := state.diskfs.ata.readSectors drive 0 1 Bytes.zero
    let hasDiskfs := ret = 0 ∧ sectorBuf.word 0 = diskfsMagic
    (some ⟨.ide, sizeMb, hasDiskfs⟩, { state with diskfs := { state.diskfs with ata } })
  else (none, state)

/-- A turn of the second loop. -/
def scanPort (state : DiskInstaller) (port : Byte) : Option DiskSlot :=
  (state.ports port).map fun disk =>
    let sizeMb := (disk.sizeSectors * 512 / (1024 * 1024)).setWidth 32
    ⟨.sata, sizeMb, disk.boot.any fun sectorBuf => sectorBuf.word 0 = diskfsMagic⟩

def scanDrives : List Byte → DiskInstaller → List (Option DiskSlot) × DiskInstaller
  | [], state => ([], state)
  | drive :: drives, state =>
    let (slot, state) := state.scanDrive drive
    let (slots, state) := scanDrives drives state
    (slot :: slots, state)

def driveNumbers : List Byte := (List.range 4).map fun drive => BitVec.ofNat 8 drive

def portNumbers : List Byte := (List.range 32).map fun port => BitVec.ofNat 8 port

/-- The arrays after both loops. -/
def scan (state : DiskInstaller) : List (Option DiskSlot) × DiskInstaller :=
  let (slots, state) := scanDrives driveNumbers state
  (slots ++ portNumbers.map state.scanPort, state)

/-- The loop over the listing from index `i` on. -/
def listing : Nat → Nat → List (Option DiskSlot) → List DiskRow
  | _, _, [] => []
  | i, driveNum, none :: slots => listing (i + 1) driveNum slots
  | i, driveNum, some slot :: slots => ⟨BitVec.ofNat 8 (48 + driveNum), i, slot⟩ :: listing (i + 1) (driveNum + 1) slots

/-- The screen before the first key. -/
def display (state : DiskInstaller) (slots : List (Option DiskSlot)) : DiskInstaller :=
  let state := state.clear.write (ascii "mexOS Disk Installer\n\nAvailable disks:\n\n")
  let state := { state with screen := state.screen ++ (listing 0 0 slots).map Shown.row }
  state.write (ascii "\nOptions:\n  [0-3] - Select drive and mount (will format if needed)\n" ++
    ascii "  [S]   - Skip disk support (RAM-only mode)\n  [R]   - Rescan drives\n\nYour choice: ")

def diskfsMount (state : DiskInstaller) (drive : Byte) : Int × DiskInstaller :=
  let (ret, diskfs) := state.diskfs.mount drive
  (ret, { state with diskfs, calls := state.calls ++ [.mount drive] })

def diskfsFormat (state : DiskInstaller) (drive : Byte) (now : Word) : Option (Int × DiskInstaller) := do
  let (ret, diskfs) ← state.diskfs.format drive now
  return (ret, { state with diskfs, calls := state.calls ++ [.format drive] })

/-- Wait for a key before the answer. -/
def afterKey (answer : DialogAnswer) : List Byte → DiskInstaller → Option (DialogAnswer × List Byte × DiskInstaller)
  | [], _ => none
  | _ :: keys, state => some (answer, keys, state)

/-- The branch for a disk with a file system. -/
def mountExisting (drive key : Byte) (keys : List Byte) (state : DiskInstaller) :
    Option (DialogAnswer × List Byte × DiskInstaller) :=
  let state := state.write (ascii "Mounting existing mexFS on drive " ++ [key] ++ ascii "...\n")
  let (ret, state) := state.diskfsMount drive
  if ret = 0 then afterKey (.returns drive.toNat) keys (state.write (ascii "Mount successful!\n"))
  else afterKey (.returns (-1)) keys (state.write (ascii "Mount failed!\n"))

/-- The branch for a disk without one, once that is confirmed. -/
def formatAndMount (now : Word) (drive key : Byte) (keys : List Byte) (state : DiskInstaller) :
    Option (DialogAnswer × List Byte × DiskInstaller) := do
  let state := state.write (ascii "Formatting drive " ++ [key] ++ ascii "...\n")
  let failed (state : DiskInstaller) := afterKey (.returns (-1)) keys (state.write (ascii "Format failed!\n"))
  let (ret, state) ← state.diskfsFormat drive now
  if ret ≠ 0 then failed state
  else
    let (ret, state) := state.diskfsMount drive
    if ret ≠ 0 then failed state
    else afterKey (.returns drive.toNat) keys (state.write (ascii "Format and mount successful!\n"))

def confirms (key : Byte) : Bool := key = 121 ∨ key = 89

def askToFormat (now : Word) (drive key : Byte) (keys : List Byte) (state : DiskInstaller) :
    Option (DialogAnswer × List Byte × DiskInstaller) :=
  let state := state.write (ascii "Drive " ++ [key] ++ ascii " is not formatted. Format now? [Y/N]: ")
  match keys with
  | [] => none
  | confirm :: keys =>
    let state := state.write (confirm :: ascii "\n")
    if confirms confirm then formatAndMount now drive key keys state else some (.restarts, keys, state)

/-- The body of the key loop; `keys` are those that follow. -/
def choose (now : Word) (slots : List (Option DiskSlot)) (key : Byte) (keys : List Byte) (state : DiskInstaller) :
    Option (DialogAnswer × List Byte × DiskInstaller) :=
  if 48 ≤ key ∧ key ≤ 51 then
    let drive := key - 48
    match slots.getD drive.toNat none with
    | none => afterKey .restarts keys (state.write (ascii "\n\nDrive does not exist!\nPress any key..."))
    | some slot =>
      let state := state.write (key :: ascii "\n\n")
      if slot.hasDiskfs then mountExisting drive key keys state else askToFormat now drive key keys state
  else if key = 115 ∨ key = 83 then
    afterKey (.returns (-1)) keys
      (state.write (key :: ascii "\n\nSkipping disk support. Running in RAM-only mode.\n"))
  else if key = 114 ∨ key = 82 then some (.restarts, keys, state)
  else some (.continues, keys, state)

/-- The key loop, and the dialog that it starts again; each turn takes one key at
least. -/
def keyLoop (now : Word) : Nat → List (Option DiskSlot) → List Byte → DiskInstaller → Option (Int × List Byte × DiskInstaller)
  | 0, _, _, _ => none
  | turns + 1, slots, keys, state =>
    match keys with
    | [] => none
    | key :: keys => do
      let (answer, keys, state) ← choose now slots key keys state
      match answer with
      | .returns ret => some (ret, keys, state)
      | .restarts =>
        let (slots, state) := state.scan
        if slots.all Option.isNone then
          some (-1, keys, state.clear.write (ascii "No ATA drives detected!\nContinue in RAM-only mode...\n"))
        else keyLoop now turns slots keys (state.display slots)
      | .continues => keyLoop now turns slots keys state

/-- `disk_installer_dialog`; `now` is the timer in `diskfs_format`. -/
def dialog (now : Word) (keys : List Byte) (state : DiskInstaller) : Option (Int × List Byte × DiskInstaller) :=
  let (slots, state) := state.scan
  if slots.all Option.isNone then
    some (-1, keys, state.clear.write (ascii "No ATA drives detected!\nContinue in RAM-only mode...\n"))
  else keyLoop now keys.length slots keys (state.display slots)

/-- How many disks the listing shows in front of an index. -/
def shownBefore (slots : List (Option DiskSlot)) (disk : Nat) : Nat := (slots.take disk).countP Option.isSome

section Listing

variable {slots : List (Option DiskSlot)} {row : DiskRow}

/-- The labels count the disks that are there. -/
theorem mem_listing (i driveNum : Nat) (shown : row ∈ listing i driveNum slots) :
    ∃ j, row.disk = i + j ∧ slots[j]? = some (some row.slot) ∧ row.label = BitVec.ofNat 8 (48 + driveNum + shownBefore slots j) := by
  induction slots generalizing i driveNum with
  | nil => cases shown
  | cons slot slots ih =>
    cases slot with
    | none =>
      obtain ⟨j, disk, here, label⟩ := ih (i + 1) driveNum shown
      refine ⟨j + 1, by omega, here, ?_⟩
      rw [label, shownBefore, shownBefore, List.take_succ_cons, List.countP_cons_of_neg Bool.false_ne_true]
    | some slot =>
      rcases List.mem_cons.mp shown with rfl | later
      · exact ⟨0, rfl, rfl, rfl⟩
      · obtain ⟨j, disk, here, label⟩ := ih (i + 1) (driveNum + 1) later
        refine ⟨j + 1, by omega, here, ?_⟩
        rw [label, shownBefore, shownBefore, List.take_succ_cons, List.countP_cons_of_pos rfl]
        congr 1
        omega

theorem shownBefore_le (slots : List (Option DiskSlot)) (disk : Nat) : shownBefore slots disk ≤ disk :=
  List.countP_le_length.trans (List.length_take_le _ _)

theorem shownBefore_eq_iff {disk : Nat} (inside : disk ≤ slots.length) :
    shownBefore slots disk = disk ↔ ∀ j < disk, (slots.getD j none).isSome := by
  have size : (slots.take disk).length = disk := List.length_take_of_le inside
  have all : (slots.take disk).countP Option.isSome = disk ↔ ∀ slot ∈ slots.take disk, slot.isSome := by
    rw [← List.countP_eq_length, size]
  rw [shownBefore, all]
  constructor
  · intro present j before
    have here : j < (slots.take disk).length := size.symm ▸ before
    have found := present _ (List.getElem_mem here)
    rw [List.getElem_take] at found
    rwa [List.getD_eq_getElem _ _ (before.trans_le inside)]
  · intro present slot member
    obtain ⟨j, here, rfl⟩ := List.getElem_of_mem member
    rw [size] at here
    have found := present j here
    rwa [List.getD_eq_getElem _ _ (here.trans_le inside), ← List.getElem_take (j := disk)] at found

end Listing

/-- A disk by the index of the arrays: four drives, and the ports behind them. -/
def DiskExists (state : DiskInstaller) (disk : Nat) : Prop :=
  if disk < 4 then state.diskfs.ata.driveExists (BitVec.ofNat 8 disk) = true
  else disk < 36 ∧ (state.ports (BitVec.ofNat 8 (disk - 4))).isSome

section Scan

variable {state : DiskInstaller}

theorem scanDrive_isSome (drive : Byte) : (state.scanDrive drive).1.isSome = state.diskfs.ata.driveExists drive := by
  rw [scanDrive]
  cases present : state.diskfs.ata.driveExists drive <;> rfl

theorem scanDrive_present (drive other : Byte) :
    (state.scanDrive drive).2.diskfs.ata.driveExists other = state.diskfs.ata.driveExists other := by
  rw [scanDrive]
  split
  · have same := (state.diskfs.ata.readSectors_drives drive 0 1 Bytes.zero).present
    change Ata.driveExists _ other = _
    rw [Ata.driveExists, Ata.driveExists, same]
  · rfl

theorem scanDrives_isSome (drives : List Byte) :
    (scanDrives drives state).1.map Option.isSome = drives.map state.diskfs.ata.driveExists := by
  induction drives generalizing state with
  | nil => rfl
  | cons drive drives ih =>
    have rest := @ih (state.scanDrive drive).2
    have same : (state.scanDrive drive).2.diskfs.ata.driveExists = state.diskfs.ata.driveExists :=
      funext (scanDrive_present drive)
    rw [scanDrives, List.map_cons, List.map_cons, scanDrive_isSome, rest, same]

theorem scan_isSome (state : DiskInstaller) : state.scan.1.map Option.isSome =
    driveNumbers.map state.diskfs.ata.driveExists ++ portNumbers.map fun port => (state.ports port).isSome := by
  have ports (other : DiskInstaller) (port : Byte) : (other.scanPort port).isSome = (other.ports port).isSome := by
    rw [scanPort, Option.isSome_map]
  have kept (drives : List Byte) (before : DiskInstaller) : (scanDrives drives before).2.ports = before.ports := by
    induction drives generalizing before with
    | nil => rfl
    | cons drive drives ih =>
      rw [scanDrives]
      refine (ih _).trans ?_
      rw [scanDrive]
      split <;> rfl
  rw [scan]
  dsimp only
  rw [List.map_append, scanDrives_isSome, List.map_map]
  congr 1
  apply List.map_congr_left
  intro port _
  rw [Function.comp_apply, ports, kept]

theorem length_scan (state : DiskInstaller) : state.scan.1.length = 36 := by
  have size := congrArg List.length state.scan_isSome
  rw [List.length_map] at size
  rw [size, List.length_append, List.length_map, List.length_map]
  decide

/-- The arrays show the disks that are there. -/
theorem scan_slot (state : DiskInstaller) {disk : Nat} (inside : disk < 36) :
    (state.scan.1.getD disk none).isSome ↔ state.DiskExists disk := by
  have size := state.length_scan
  have here := congrArg (fun flags => flags[disk]?) state.scan_isSome
  simp only [List.getElem?_map] at here
  rw [List.getElem?_eq_getElem (by omega), Option.map_some] at here
  rw [List.getD_eq_getElem _ _ (by omega), DiskExists]
  have drives : (driveNumbers.map state.diskfs.ata.driveExists).length = 4 := by simp [driveNumbers]
  split
  · next drive =>
    rw [List.getElem?_append_left (by omega)] at here
    simp only [driveNumbers, List.map_map, List.getElem?_map, List.getElem?_range drive, Option.map_some, Option.some.injEq,
      Function.comp_apply] at here
    rw [here]
  · next port =>
    have later : disk - 4 < 32 := by omega
    rw [List.getElem?_append_right (by omega), drives] at here
    simp only [portNumbers, List.map_map, List.getElem?_map, List.getElem?_range later, Option.map_some, Option.some.injEq,
      Function.comp_apply] at here
    rw [here, and_iff_right inside]

end Scan

/-- The calls made on the way are about this disk and no other. -/
def ActsOn (before after : DiskInstaller) (disk : Nat) : Prop :=
  ∃ made, after.calls = before.calls ++ made ∧ made ≠ [] ∧ ∀ call ∈ made, call.disk = disk

/-- A key makes the dialog mount or format the disk; where it asks whether to
format, that is confirmed. -/
def Selects (now : Word) (slots : List (Option DiskSlot)) (state : DiskInstaller) (key : Byte) (disk : Nat) : Prop :=
  ∀ confirm last keys, confirms confirm → ∃ answer rest after,
    choose now slots key (confirm :: last :: keys) state = some (answer, rest, after) ∧ state.ActsOn after disk

section Choice

variable {state before : DiskInstaller} {now : Word} {slots : List (Option DiskSlot)} {drive key confirm last : Byte}
  {keys : List Byte} {slot : DiskSlot}

theorem mountExisting_acts (same : state.calls = before.calls) :
    ∃ answer rest after, mountExisting drive key (confirm :: keys) state = some (answer, rest, after) ∧
      before.ActsOn after drive.toNat := by
  rw [mountExisting]
  dsimp only
  have made : state.calls ++ [.mount drive] = before.calls ++ [.mount drive] := congrArg (· ++ [.mount drive]) same
  split
  · exact ⟨_, _, _, rfl, [.mount drive], made, List.cons_ne_nil _ _, fun call member => List.mem_singleton.mp member ▸ rfl⟩
  · exact ⟨_, _, _, rfl, [.mount drive], made, List.cons_ne_nil _ _, fun call member => List.mem_singleton.mp member ▸ rfl⟩

/-- `diskfs_format` always returns. -/
theorem format_returns (fs : Diskfs) (drive : Byte) (now : Word) : ∃ result, fs.format drive now = some result := by
  by_cases present : fs.ata.driveExists drive = true
  · rcases Diskfs.format_present present now with ⟨_, works⟩ | ⟨_, ata, fails⟩
    · exact ⟨_, works⟩
    · exact ⟨_, fails⟩
  · rw [Diskfs.format, if_pos (by simp [present])]
    exact ⟨_, rfl⟩

theorem formatAndMount_acts (same : state.calls = before.calls) :
    ∃ answer rest after, formatAndMount now drive key (confirm :: keys) state = some (answer, rest, after) ∧
      before.ActsOn after drive.toNat := by
  obtain ⟨⟨ret, diskfs⟩, formats⟩ := format_returns state.diskfs drive now
  have formatted : (state.write (ascii "Formatting drive " ++ [key] ++ ascii "...\n")).diskfsFormat drive now =
      some (ret, { state.write (ascii "Formatting drive " ++ [key] ++ ascii "...\n") with
        diskfs, calls := state.calls ++ [.format drive] }) := by
    rw [diskfsFormat]
    change (state.diskfs.format drive now).bind _ = _
    rw [formats]
    rfl
  have first : state.calls ++ [.format drive] = before.calls ++ [.format drive] := congrArg (· ++ [.format drive]) same
  have both : state.calls ++ [.format drive] ++ [.mount drive] = before.calls ++ [.format drive, .mount drive] := by
    rw [same, List.append_assoc]
    rfl
  have one : ∀ call ∈ [DiskCall.format drive], call.disk = drive.toNat := by
    intro call member
    exact List.mem_singleton.mp member ▸ rfl
  have two : ∀ call ∈ [DiskCall.format drive, DiskCall.mount drive], call.disk = drive.toNat := by
    intro call member
    rcases List.mem_cons.mp member with rfl | next
    · rfl
    · exact List.mem_singleton.mp next ▸ rfl
  rw [formatAndMount]
  dsimp only
  rw [formatted]
  simp only [Option.bind_eq_bind, Option.bind_some]
  split
  · exact ⟨_, _, _, rfl, _, first, List.cons_ne_nil _ _, one⟩
  · split
    · exact ⟨_, _, _, rfl, _, both, List.cons_ne_nil _ _, two⟩
    · exact ⟨_, _, _, rfl, _, both, List.cons_ne_nil _ _, two⟩

/-- A digit acts on the disk of its own number. -/
theorem choose_acts (digit : 48 ≤ key ∧ key ≤ 51) (present : slots.getD (key - 48).toNat none = some slot)
    (yes : confirms confirm) : ∃ answer rest after,
      choose now slots key (confirm :: last :: keys) state = some (answer, rest, after) ∧ state.ActsOn after (key - 48).toNat := by
  rw [choose, if_pos digit]
  dsimp only
  rw [present]
  dsimp only
  split
  · exact mountExisting_acts rfl
  · rw [askToFormat, if_pos yes]
    exact formatAndMount_acts rfl

theorem choose_absent (digit : 48 ≤ key ∧ key ≤ 51) (absent : slots.getD (key - 48).toNat none = none) :
    ∃ answer rest after, choose now slots key (confirm :: keys) state = some (answer, rest, after) ∧ after.calls = state.calls := by
  rw [choose, if_pos digit]
  dsimp only
  rw [absent]
  exact ⟨_, _, _, rfl, rfl⟩

theorem selects_iff (digit : 48 ≤ key ∧ key ≤ 51) (disk : Nat) :
    Selects now slots state key disk ↔ (slots.getD (key - 48).toNat none).isSome ∧ (key - 48).toNat = disk := by
  constructor
  · intro selects
    obtain ⟨_, _, after, chosen, made, calls, some_call, all⟩ := selects 121 0 [] rfl
    cases here : slots.getD (key - 48).toNat none with
    | none =>
      obtain ⟨_, _, other, again, same⟩ := @choose_absent state now slots key 121 [0] digit here
      rw [chosen, Option.some.injEq, Prod.mk.injEq, Prod.mk.injEq] at again
      rw [← again.2.2, calls] at same
      exact absurd (List.append_right_eq_self.mp same) some_call
    | some slot =>
      obtain ⟨_, _, other, again, acted, others, _, same⟩ :=
        @choose_acts state now slots key 121 0 [] slot digit here rfl
      rw [chosen, Option.some.injEq, Prod.mk.injEq, Prod.mk.injEq] at again
      rw [← again.2.2, calls, List.append_cancel_left_eq] at others
      obtain ⟨call, member⟩ := List.exists_mem_of_ne_nil _ some_call
      exact ⟨rfl, (same call (others ▸ member)).symm.trans (all call member)⟩
  · rintro ⟨present, rfl⟩ confirm last keys yes
    obtain ⟨slot, here⟩ := Option.isSome_iff_exists.mp present
    exact choose_acts digit here yes

/-- The key that is shown beside a disk selects it exactly when no disk in front
of it is missing. -/
theorem label_selects_iff (state : DiskInstaller) (now : Word) {row : DiskRow} (shown : row ∈ listing 0 0 state.scan.1)
    (accepted : 48 ≤ row.label ∧ row.label ≤ 51) :
    Selects now state.scan.1 (state.scan.2.display state.scan.1) row.label row.disk ↔
      ∀ disk < row.disk, state.DiskExists disk := by
  obtain ⟨j, disk, here, label⟩ := mem_listing 0 0 shown
  obtain rfl : j = row.disk := by omega
  have size := state.length_scan
  have inside : row.disk < state.scan.1.length := (List.getElem?_eq_some_iff.mp here).1
  have few := shownBefore_le state.scan.1 row.disk
  have number : (row.label - 48).toNat = shownBefore state.scan.1 row.disk := by
    rw [label, BitVec.toNat_sub, BitVec.toNat_ofNat]
    have base : (48 : Byte).toNat = 48 := rfl
    rw [base]
    omega
  have all : (∀ disk < row.disk, state.DiskExists disk) ↔ shownBefore state.scan.1 row.disk = row.disk := by
    rw [shownBefore_eq_iff (Nat.le_of_lt inside)]
    refine forall_congr' fun other => imp_congr_right fun before => ?_
    exact (state.scan_slot (by omega)).symm
  rw [selects_iff accepted, number, all, and_iff_right_iff_imp]
  intro same
  rw [same, List.getD_eq_getElem?_getD, here]
  rfl

/-- The first key of the dialog goes to the key loop for the disks that are
listed. -/
theorem dialog_key (state : DiskInstaller) (now : Word) (key : Byte) (keys : List Byte) {row : DiskRow}
    (shown : row ∈ listing 0 0 state.scan.1) :
    state.dialog now (key :: keys) =
      keyLoop now (keys.length + 1) state.scan.1 (key :: keys) (state.scan.2.display state.scan.1) := by
  obtain ⟨j, _, here, _⟩ := mem_listing 0 0 shown
  have found : state.scan.1.all Option.isNone = false := by
    rw [List.all_eq_false]
    exact ⟨some row.slot, List.mem_of_getElem? here, Bool.false_ne_true⟩
  rw [dialog]
  dsimp only
  rw [found]
  rfl

end Choice

/-- Drives of zeros at these indices, and no port. -/
def driveSet (present : Byte → Bool) : DiskInstaller where
  diskfs := { Diskfs.uniform 0 with ata := { (Diskfs.uniform 0).ata with present } }
  ataSize _ := 0
  ports _ := none
  screen := []
  calls := []

theorem label_selects_only_drive :
    Selects 0 (driveSet fun drive => drive = 0).scan.1
      ((driveSet fun drive => drive = 0).scan.2.display (driveSet fun drive => drive = 0).scan.1) 48 0 ↔
    ∀ disk < 0, (driveSet fun drive => drive = 0).DiskExists disk :=
  @label_selects_iff (driveSet fun drive => drive = 0) 0 ⟨48, 0, ⟨.ide, 0, false⟩⟩ (by decide +kernel) (by decide)

/-- The only disk is the second drive: its key is that of the first. -/
theorem label_selects_missing_drive :
    ∃ row ∈ listing 0 0 (driveSet fun drive => drive = 1).scan.1, (48 ≤ row.label ∧ row.label ≤ 51) ∧
      ¬ Selects 0 (driveSet fun drive => drive = 1).scan.1
        ((driveSet fun drive => drive = 1).scan.2.display (driveSet fun drive => drive = 1).scan.1) row.label row.disk := by
  refine ⟨⟨48, 1, ⟨.ide, 0, false⟩⟩, by decide +kernel, by decide, ?_⟩
  rw [selects_iff (by decide)]
  rintro ⟨_, same⟩
  exact absurd same (by decide)

end DiskInstaller

end MexOS.Ui
