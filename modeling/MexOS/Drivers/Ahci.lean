import MexOS.Machine.Tiling
import MexOS.Machine.Transition
import Mathlib.Logic.Function.Basic

/-! The commands that `drivers/storage/ahci.c` gives to a port.

The headers and tables in memory are those that `ahci_port_rebase` allocates;
what the controller answers is a parameter. -/

namespace MexOS.Drivers

open MexOS.Machine

/-- `struct hba_prdt_entry` -/
structure HbaPrdtEntry where
  dba : Word
  dbau : Word
  dbc : BitVec 22
  i : Bool

/-- `struct fis_reg_h2d` -/
structure FisRegH2d where
  fisType : Byte
  c : Bool
  command : Byte
  lba0 : Byte
  lba1 : Byte
  lba2 : Byte
  device : Byte
  lba3 : Byte
  lba4 : Byte
  lba5 : Byte
  count : BitVec 16

/-- `struct hba_cmd_header` -/
structure HbaCmdHeader where
  cfl : BitVec 5
  w : Bool
  prdtl : BitVec 16
  ctba : Word
  ctbau : Word

/-- `struct hba_cmd_tbl`, in an allocation of `room` bytes. -/
structure HbaCmdTbl where
  room : Nat
  cfis : FisRegH2d
  prdtEntry : Nat → HbaPrdtEntry

/-- The registers that are read, and what `clb` leads to. -/
structure HbaPort where
  sact : Word
  ci : Word
  headers : Nat → HbaCmdHeader
  tables : Nat → HbaCmdTbl

/-- The statics of `ahci.c`, and the ports. -/
structure Hba where
  ahciAvailable : Bool
  portDeviceType : Nat → Byte
  ports : Nat → HbaPort

/-- What the controller does with a command: how often the port is seen busy
before it, and whether it completes. -/
structure Answer where
  spins : Nat
  completes : Bool

/-- A command in `ci`, and the parts of its table that were written for it. -/
structure Issue where
  slot : Nat
  writes : List (Nat × Nat)

def ahciDevSata : Byte := 1
def ataCmdReadDmaEx : Byte := 0x25
def ataCmdWriteDmaEx : Byte := 0x35

def HbaPrdtEntry.cleared : HbaPrdtEntry := ⟨0, 0, 0, false⟩
def FisRegH2d.cleared : FisRegH2d := ⟨0, false, 0, 0, 0, 0, 0, 0, 0, 0, 0⟩

/-- `memset(cmdtbl, 0, length)`. -/
def HbaCmdTbl.memset (table : HbaCmdTbl) (length : Nat) : HbaCmdTbl where
  room := table.room
  cfis := .cleared
  prdtEntry i := if 128 + 16 * i < length then .cleared else table.prdtEntry i

def HbaCmdTbl.fill (table : HbaCmdTbl) (i : Nat) (buffer : Word) (dbc : BitVec 22) : HbaCmdTbl :=
  { table with prdtEntry := Function.update table.prdtEntry i ⟨buffer, 0, dbc, true⟩ }

/-- `ctba` holds what `kmalloc_aligned(256, 256)` returned. -/
def ahciPortRebase (port : HbaPort) (ctba : Nat → Word) : HbaPort where
  sact := port.sact
  ci := port.ci
  headers i := ⟨0, false, 8, ctba i, 0⟩
  tables _ := ⟨256, .cleared, fun _ => .cleared⟩

/-- The loop of `ahci_find_cmdslot`; -1 is `none`. -/
def findCmdslotFrom : Nat → Nat → Word → Option Nat
  | 0, _, _ => none
  | turns + 1, i, slots => if slots &&& 1 = 0 then some i else findCmdslotFrom turns (i + 1) (slots >>> 1)

def ahciFindCmdslot (port : HbaPort) : Option Nat := findCmdslotFrom 32 0 (port.sact ||| port.ci)

/-- The loop over all descriptors but the last: the table, `i`, the buffer, the
count and what was written. -/
def fillLoop : Nat → HbaCmdTbl → Nat → Word → BitVec 16 → HbaCmdTbl × Nat × Word × BitVec 16 × List (Nat × Nat)
  | 0, table, i, buffer, count => (table, i, buffer, count, [])
  | turns + 1, table, i, buffer, count =>
    let (table, last, buffer, count, writes) :=
      fillLoop turns (table.fill i buffer (8 * 1024 - 1)) (i + 1) (buffer + 8 * 1024) (count - 16)
    (table, last, buffer, count, (128 + 16 * i, 16) :: writes)

def fis (command : Byte) (lba : BitVec 64) (count : BitVec 16) : FisRegH2d where
  fisType := 0x27
  c := true
  command := command
  lba0 := lba.setWidth 8
  lba1 := (lba >>> 8).setWidth 8
  lba2 := (lba >>> 16).setWidth 8
  device := 1 <<< 6
  lba3 := (lba >>> 24).setWidth 8
  lba4 := (lba >>> 32).setWidth 8
  lba5 := (lba >>> 40).setWidth 8
  count := count

/-- The command table of a transfer, and the parts of it that are written. -/
def fillTable (table : HbaCmdTbl) (prdtl : BitVec 16) (command : Byte) (lba : BitVec 64) (count : BitVec 16)
    (buffer : Word) : HbaCmdTbl × List (Nat × Nat) :=
  let cleared := 144 + 16 * prdtl.toNat
  let (table, i, buffer, count, writes) := fillLoop (prdtl.toNat - 1) (table.memset cleared) 0 buffer count
  let table := table.fill i buffer (BitVec.ofInt 22 (count.toNat * 512 - 1))
  ({ table with cfis := fis command lba count }, (0, cleared) :: writes ++ [(128 + 16 * i, 16), (0, 20)])

/-- `(uint16_t)((count - 1) / 16 + 1)` -/
def descriptors (count : BitVec 16) : BitVec 16 := BitVec.ofInt 16 (((count.toNat : Int) - 1).tdiv 16 + 1)

/-- What `ahci_read_sectors` and `ahci_write_sectors` share: the result, the
state and the command that was issued. -/
def ahciTransfer (w : Bool) (command : Byte) (hba : Hba) (answer : Answer) (port : Byte) (lba : BitVec 64)
    (count : BitVec 16) (buffer : Word) : Int × Hba × Option Issue :=
  if ¬ hba.ahciAvailable ∨ 32 ≤ port.toNat then (-1, hba, none)
  else if hba.portDeviceType port.toNat ≠ ahciDevSata then (-1, hba, none)
  else
    let hbaPort := hba.ports port.toNat
    match ahciFindCmdslot hbaPort with
    | none => (-1, hba, none)
    | some slot =>
      let header := { hbaPort.headers slot with cfl := 5, w := w, prdtl := descriptors count }
      let (table, writes) := fillTable (hbaPort.tables slot) header.prdtl command lba count buffer
      let hbaPort := { hbaPort with
        headers := Function.update hbaPort.headers slot header
        tables := Function.update hbaPort.tables slot table }
      let hba := { hba with ports := Function.update hba.ports port.toNat hbaPort }
      if 1000000 ≤ answer.spins then (-1, hba, none)
      else (if answer.completes then 0 else -1, hba, some ⟨slot, writes⟩)

def ahciReadSectors := ahciTransfer false ataCmdReadDmaEx

def ahciWriteSectors := ahciTransfer true ataCmdWriteDmaEx

/-- Where an entry leads to, and for how many bytes. -/
def HbaPrdtEntry.region (entry : HbaPrdtEntry) : Word × Nat := (entry.dba, entry.dbc.toNat + 1)

/-- The command that was issued describes the transfer of `count` sectors to or
from the buffer. -/
structure Describes (port : HbaPort) (issue : Issue) (count : BitVec 16) (buffer : Word) : Prop where
  regions : Tiles ((List.range (port.headers issue.slot).prdtl.toNat).map fun i =>
    ((port.tables issue.slot).prdtEntry i).region) buffer (512 * count.toNat)
  low : ∀ i < (port.headers issue.slot).prdtl.toNat, ((port.tables issue.slot).prdtEntry i).dbau = 0
  sectors : (port.tables issue.slot).cfis.count = count
  fits : ∀ write ∈ issue.writes, write.1 + write.2 ≤ (port.tables issue.slot).room

section Loop

variable {table : HbaCmdTbl} {i : Nat} {buffer : Word} {count : BitVec 16}

theorem fillLoop_eq (turns : Nat) : ∃ after, fillLoop turns table i buffer count =
      (after, i + turns, buffer + BitVec.ofNat 32 (8192 * turns), count - BitVec.ofNat 16 (16 * turns),
        (List.range turns).map fun block => (128 + 16 * (i + block), 16)) ∧
    after.room = table.room ∧ (∀ before < i, after.prdtEntry before = table.prdtEntry before) ∧
    ∀ block < turns, after.prdtEntry (i + block) = ⟨buffer + BitVec.ofNat 32 (8192 * block), 0, 8191, true⟩ := by
  induction turns generalizing table i buffer count with
  | zero =>
    refine ⟨table, ?_, rfl, fun _ _ => rfl, fun block bound => absurd bound (Nat.not_lt_zero _)⟩
    rw [fillLoop, Nat.mul_zero, BitVec.add_zero, BitVec.sub_zero]
    rfl
  | succ turns ih =>
    obtain ⟨after, call, room, earlier, entries⟩ :=
      @ih (table.fill i buffer (8 * 1024 - 1)) (i + 1) (buffer + 8 * 1024) (count - 16)
    have advance (block : Nat) : buffer + 8 * 1024 + BitVec.ofNat 32 (8192 * block) =
        buffer + BitVec.ofNat 32 (8192 * (block + 1)) := by
      rw [BitVec.add_assoc, Nat.mul_succ, BitVec.ofNat_add, BitVec.add_comm (8 * 1024)]
      rfl
    have consumed : count - 16 - BitVec.ofNat 16 (16 * turns) = count - BitVec.ofNat 16 (16 * (turns + 1)) := by
      rw [Nat.mul_succ, BitVec.ofNat_add]
      grind
    refine ⟨after, ?_, room, ?_, ?_⟩
    · rw [fillLoop, call, advance, consumed, List.range_succ_eq_map, List.map_cons, List.map_map]
      simp only [Function.comp_def, Nat.add_zero, Nat.succ_eq_add_one, Nat.add_assoc, Nat.add_comm 1]
    · intro before bound
      rw [earlier before (by omega)]
      exact Function.update_of_ne (by omega) _ _
    · intro block bound
      cases block with
      | zero =>
        rw [Nat.add_zero, earlier i (Nat.lt_succ_self i), Nat.mul_zero, BitVec.add_zero]
        exact Function.update_self ..
      | succ block =>
        rw [Nat.add_comm block 1, ← Nat.add_assoc, entries block (by omega), advance, Nat.add_comm 1 block]

theorem fillTable_room (table : HbaCmdTbl) (prdtl : BitVec 16) (command : Byte) (lba : BitVec 64) (count : BitVec 16)
    (buffer : Word) : (fillTable table prdtl command lba count buffer).1.room = table.room := by
  obtain ⟨filled, call, room, _⟩ :=
    @fillLoop_eq (table.memset (144 + 16 * prdtl.toNat)) 0 buffer count (prdtl.toNat - 1)
  rw [fillTable, call]
  exact room

end Loop

/-- How many descriptors are full. -/
def fullBlocks (count : BitVec 16) : Nat := (count.toNat - 1) / 16

section Table

variable {count : BitVec 16} (positive : 0 < count)

include positive

theorem descriptors_eq : (descriptors count).toNat = fullBlocks count + 1 := by
  have some : 0 < count.toNat := positive
  have bound := count.isLt
  have before : (count.toNat : Int) - 1 = ((count.toNat - 1 : Nat) : Int) := by omega
  have sixteen : (16 : Int) = ((16 : Nat) : Int) := rfl
  rw [descriptors, before, sixteen, ← Int.ofNat_tdiv, BitVec.toNat_ofInt, fullBlocks]
  omega

/-- What the loop leaves for the last descriptor. -/
theorem left_eq : (count - BitVec.ofNat 16 (16 * fullBlocks count)).toNat = count.toNat - 16 * fullBlocks count := by
  have some : 0 < count.toNat := positive
  have bound := count.isLt
  rw [BitVec.toNat_sub, BitVec.toNat_ofNat, fullBlocks]
  omega

theorem last_region (buffer : Word) :
    HbaPrdtEntry.region ⟨buffer, 0, BitVec.ofInt 22 ((count - BitVec.ofNat 16 (16 * fullBlocks count)).toNat * 512 - 1), true⟩ =
      (buffer, 512 * count.toNat - 8192 * fullBlocks count) := by
  have some : 0 < count.toNat := positive
  rw [HbaPrdtEntry.region, left_eq positive, BitVec.toNat_ofInt, fullBlocks]
  congr 1
  omega

variable {table : HbaCmdTbl} {command : Byte} {lba : BitVec 64} {buffer : Word}

theorem fillTable_eq : ∃ filled : HbaCmdTbl, fillTable table (descriptors count) command lba count buffer =
      ({ filled with cfis := fis command lba (count - BitVec.ofNat 16 (16 * fullBlocks count)) },
        (0, 144 + 16 * (fullBlocks count + 1)) :: ((List.range (fullBlocks count)).map fun block => (128 + 16 * block, 16)) ++
          [(128 + 16 * fullBlocks count, 16), (0, 20)]) ∧
    filled.room = table.room ∧
    (∀ block < fullBlocks count, filled.prdtEntry block = ⟨buffer + BitVec.ofNat 32 (8192 * block), 0, 8191, true⟩) ∧
    filled.prdtEntry (fullBlocks count) = ⟨buffer + BitVec.ofNat 32 (8192 * fullBlocks count), 0,
      BitVec.ofInt 22 ((count - BitVec.ofNat 16 (16 * fullBlocks count)).toNat * 512 - 1), true⟩ := by
  obtain ⟨after, call, room, _, entries⟩ :=
    @fillLoop_eq (table.memset (144 + 16 * (fullBlocks count + 1))) 0 buffer count (fullBlocks count)
  have turns : (descriptors count).toNat - 1 = fullBlocks count := by
    rw [descriptors_eq positive, Nat.add_sub_cancel]
  rw [fillTable, turns, descriptors_eq positive]
  dsimp only
  rw [call]
  simp only [Nat.zero_add] at entries ⊢
  refine ⟨after.fill (fullBlocks count) _ _, rfl, room, ?_, Function.update_self ..⟩
  intro block bound
  rw [← entries block bound]
  exact Function.update_of_ne (by omega) _ _

/-- The descriptors of every request cover its buffer. -/
theorem fillTable_tiles : Tiles ((List.range (descriptors count).toNat).map fun i =>
      ((fillTable table (descriptors count) command lba count buffer).1.prdtEntry i).region) buffer (512 * count.toNat) := by
  obtain ⟨filled, call, _, full, last⟩ := @fillTable_eq count positive table command lba buffer
  have some : 0 < count.toNat := positive
  have whole : 512 * count.toNat = 8192 * fullBlocks count + (512 * count.toNat - 8192 * fullBlocks count) := by
    rw [fullBlocks]
    omega
  rw [call, descriptors_eq positive, List.range_succ, List.map_append, List.map_singleton, last, last_region positive, whole]
  apply tiles_append
  · have blocks : (List.range (fullBlocks count)).map (fun i => (filled.prdtEntry i).region) =
        (List.range (fullBlocks count)).map fun block => (buffer + BitVec.ofNat 32 (8192 * block), 8192) := by
      apply List.map_congr_left
      intro block inside
      rw [full block (List.mem_range.mp inside)]
      rfl
    rw [blocks]
    exact tiles_blocks buffer 8192 (fullBlocks count)
  · rw [Nat.add_sub_cancel_left]
    exact tiles_single

theorem fillTable_low {i : Nat} (inside : i < (descriptors count).toNat) :
    ((fillTable table (descriptors count) command lba count buffer).1.prdtEntry i).dbau = 0 := by
  obtain ⟨filled, call, _, full, last⟩ := @fillTable_eq count positive table command lba buffer
  rw [descriptors_eq positive] at inside
  rw [call]
  by_cases final : i = fullBlocks count
  · rw [final, last]
  · rw [full i (by omega)]

/-- The loop uses the count up: the number of sectors is what the last descriptor
holds. -/
theorem fillTable_sectors :
    (fillTable table (descriptors count) command lba count buffer).1.cfis.count = count ↔ count ≤ 16 := by
  obtain ⟨filled, call, _, _, _⟩ := @fillTable_eq count positive table command lba buffer
  have some : 0 < count.toNat := positive
  have limit : count ≤ 16 ↔ count.toNat ≤ 16 := Iff.rfl
  rw [call, ← BitVec.toNat_inj, fis, left_eq positive, limit, fullBlocks]
  omega

theorem fillTable_fits (few : count ≤ 16) :
    ∀ write ∈ (fillTable table (descriptors count) command lba count buffer).2, write.1 + write.2 ≤ 256 := by
  obtain ⟨filled, call, _, _, _⟩ := @fillTable_eq count positive table command lba buffer
  have limit : count.toNat ≤ 16 := few
  have none : fullBlocks count = 0 := by
    rw [fullBlocks]
    omega
  rw [call, none]
  change ∀ write ∈ [(0, 160), (128, 16), (0, 20)], write.1 + write.2 ≤ 256
  decide

end Table

/-- A call that issues a command. -/
theorem ahciTransfer_issues {w : Bool} {command : Byte} {hba after : Hba} {answer : Answer} {port : Byte} {lba : BitVec 64}
    {count : BitVec 16} {buffer : Word} {ret : Int} {issue : Issue}
    (call : ahciTransfer w command hba answer port lba count buffer = (ret, after, some issue)) :
    port.toNat < 32 ∧ hba.portDeviceType port.toNat = ahciDevSata ∧ ∃ slot,
      issue = ⟨slot, (fillTable ((hba.ports port.toNat).tables slot) (descriptors count) command lba count buffer).2⟩ ∧
      (after.ports port.toNat).tables slot =
        (fillTable ((hba.ports port.toNat).tables slot) (descriptors count) command lba count buffer).1 ∧
      ((after.ports port.toNat).headers slot).prdtl = descriptors count := by
  rw [ahciTransfer] at call
  split at call
  · cases call
  next available =>
  split at call
  · cases call
  next sata =>
  dsimp only at call
  split at call
  · cases call
  next slot found =>
  split at call
  · cases call
  · cases call
    refine ⟨by omega, not_not.mp sata, slot, rfl, ?_, ?_⟩
    · simp only [Function.update_self]
    · simp only [Function.update_self]

/-- The command of one call describes its request exactly when the count fits a
single descriptor. -/
theorem ahciTransfer_describes {w : Bool} {command : Byte} {hba after : Hba} {answer : Answer} {port : Byte} {lba : BitVec 64}
    {count : BitVec 16} {buffer : Word} {ret : Int} {issue : Issue}
    (rooms : hba.portDeviceType port.toNat = ahciDevSata → ∀ slot, ((hba.ports port.toNat).tables slot).room = 256)
    (positive : 0 < count) (call : ahciTransfer w command hba answer port lba count buffer = (ret, after, some issue)) :
    Describes (after.ports port.toNat) issue count buffer ↔ count ≤ 16 := by
  obtain ⟨_, sata, slot, rfl, tables, header⟩ := ahciTransfer_issues call
  constructor
  · intro describes
    have sectors := describes.sectors
    rw [tables] at sectors
    exact (fillTable_sectors positive).mp sectors
  · intro few
    refine ⟨?_, ?_, ?_, ?_⟩
    · rw [tables, header]
      exact fillTable_tiles positive
    · rw [tables, header]
      exact fun i inside => fillTable_low positive inside
    · rw [tables]
      exact (fillTable_sectors positive).mpr few
    · rw [tables, fillTable_room, rooms sata]
      exact @fillTable_fits count positive _ command lba buffer few

section Runs

variable {start hba after : Hba}

/-- What `memset` clears of a command table lies in its 256 bytes; a call with more
sectors goes on into what lies behind. -/
def TableFits (count : BitVec 16) : Prop := 144 + 16 * (descriptors count).toNat ≤ 256

/-- A call of the driver after the ports were probed that stays inside its table,
or a change of the registers by the controller. -/
inductive AhciStep (hba : Hba) : Hba → Prop
  | read (answer : Answer) (port : Byte) (lba : BitVec 64) (count : BitVec 16) (buffer : Word) : TableFits count →
    AhciStep hba (ahciReadSectors hba answer port lba count buffer).2.1
  | write (answer : Answer) (port : Byte) (lba : BitVec 64) (count : BitVec 16) (buffer : Word) : TableFits count →
    AhciStep hba (ahciWriteSectors hba answer port lba count buffer).2.1
  | controller (sact ci : Nat → Word) :
    AhciStep hba { hba with ports := fun port => { hba.ports port with sact := sact port, ci := ci port } }

/-- As `ahci_probe_ports` leaves it: the ports of SATA drives have the tables of
`ahci_port_rebase`, whatever identifying the drive has left in them. -/
def Probed (hba : Hba) : Prop := ∀ port < 32, hba.portDeviceType port = ahciDevSata →
  ∃ before ctba, ∀ slot, ((hba.ports port).tables slot).room = ((ahciPortRebase before ctba).tables slot).room

/-- The tables of SATA drives have 256 bytes. -/
def Roomy (hba : Hba) : Prop := ∀ port < 32, hba.portDeviceType port = ahciDevSata →
  ∀ slot, ((hba.ports port).tables slot).room = 256

theorem ahciTransfer_roomy (w : Bool) (command : Byte) (answer : Answer) (port : Byte) (lba : BitVec 64)
    (count : BitVec 16) (buffer : Word) (roomy : Roomy hba) :
    Roomy (ahciTransfer w command hba answer port lba count buffer).2.1 := by
  rw [ahciTransfer]
  split
  · exact roomy
  next available =>
  split
  · exact roomy
  next sata =>
  dsimp only
  split
  · exact roomy
  next slot _ =>
  have filled : Roomy { hba with ports := Function.update hba.ports port.toNat { hba.ports port.toNat with
      headers := Function.update (hba.ports port.toNat).headers slot
        { (hba.ports port.toNat).headers slot with cfl := 5, w := w, prdtl := descriptors count }
      tables := Function.update (hba.ports port.toNat).tables slot
        (fillTable ((hba.ports port.toNat).tables slot) (descriptors count) command lba count buffer).1 } } := by
    intro other small type entry
    dsimp only
    by_cases same : other = port.toNat
    · subst same
      rw [Function.update_self]
      dsimp only
      by_cases here : entry = slot
      · subst here
        rw [Function.update_self, fillTable_room]
        exact roomy _ small type _
      · rw [Function.update_of_ne here]
        exact roomy _ small type _
    · rw [Function.update_of_ne same]
      exact roomy _ small type _
  split
  · exact filled
  · exact filled

theorem roomy_of_probed (probed : Probed hba) : Roomy hba := by
  intro port small type slot
  obtain ⟨before, ctba, same⟩ := probed port small type
  rw [same slot]
  rfl

theorem AhciStep.roomy (roomy : Roomy hba) (step : AhciStep hba after) : Roomy after := by
  cases step with
  | read answer port lba count buffer _ => exact ahciTransfer_roomy _ _ _ _ _ _ _ roomy
  | write answer port lba count buffer _ => exact ahciTransfer_roomy _ _ _ _ _ _ _ roomy
  | controller sact ci => exact roomy

/-- A command that is issued describes its request exactly when there are at most
16 sectors. -/
theorem ahci_describes_iff {answer : Answer} {port : Byte} {lba : BitVec 64} {count : BitVec 16} {buffer : Word} {ret : Int}
    {issue : Issue} (probed : Probed start) (run : Reachable AhciStep start hba) (positive : 0 < count)
    (call : ahciReadSectors hba answer port lba count buffer = (ret, after, some issue) ∨
      ahciWriteSectors hba answer port lba count buffer = (ret, after, some issue)) :
    Describes (after.ports port.toNat) issue count buffer ↔ count ≤ 16 := by
  have roomy : Roomy hba := run.invariant (roomy_of_probed probed) fun _ _ roomy step => step.roomy roomy
  rcases call with read | write
  · exact ahciTransfer_describes (roomy _ (ahciTransfer_issues read).1) positive read
  · exact ahciTransfer_describes (roomy _ (ahciTransfer_issues write).1) positive write

/-- A port with a drive, right after it was probed. -/
def oneDrive : Hba where
  ahciAvailable := true
  portDeviceType _ := ahciDevSata
  ports _ := ahciPortRebase ⟨0, 0, fun _ => ⟨0, false, 0, 0, 0⟩, fun _ => ⟨0, .cleared, fun _ => .cleared⟩⟩ fun slot =>
    BitVec.ofNat 32 (4096 + 256 * slot)

theorem oneDrive_probed : Probed oneDrive := fun port _ _ => ⟨oneDrive.ports port, fun _ => 0, fun _ => rfl⟩

theorem ahci_describes_sixteen : ∃ ret after issue,
    ahciReadSectors oneDrive ⟨0, true⟩ 0 0 16 65536 = (ret, after, some issue) ∧
      Describes (after.ports 0) issue 16 65536 :=
  ⟨_, _, _, rfl, (@ahci_describes_iff oneDrive oneDrive _ ⟨0, true⟩ 0 0 16 65536 _ _ oneDrive_probed .refl (by decide)
    (.inl rfl)).mpr (by decide)⟩

/-- The seventeenth sector has a descriptor of its own, and it is all that the
command asks for. -/
theorem ahci_describes_one_of_seventeen : ¬ ∀ (start hba after : Hba) (answer : Answer) (port : Byte) (lba : BitVec 64)
    (count : BitVec 16) (buffer : Word) (ret : Int) (issue : Issue), Probed start → Reachable AhciStep start hba →
    0 < count → ahciReadSectors hba answer port lba count buffer = (ret, after, some issue) →
      Describes (after.ports port.toNat) issue count buffer := by
  intro claim
  have describes := claim oneDrive oneDrive _ ⟨0, true⟩ 0 0 17 65536 _ _ oneDrive_probed .refl (by decide) rfl
  exact absurd describes.sectors (by decide)

end Runs

end MexOS.Drivers
