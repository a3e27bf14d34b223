import MexOS.Drivers.AtaPio

/-! Two channels with two drives each, as drives answer programmed transfers:
registers, busy periods, data requests and the error bit. How long a period
takes and which blocks go wrong is left open. -/

namespace MexOS.Drivers.AtaPio

open MexOS.Machine

/-- What is found at a drive number. -/
inductive Attached where
  | nothing
  | packet
  | disk (identity : Bytes)

/-- What a channel is in the middle of. `number` counts the transfers, `block`
and `word` say how far this one has come. -/
inductive Phase where
  | idle (error : Bool)
  | identify (word : Nat)
  | data (writing : Bool) (number sector count block word : Nat) (staged : Bytes)

namespace Phase

def failed : Phase → Bool
  | idle true => true
  | _ => false

/-- The phases with a data request. -/
def requests : Phase → Bool
  | idle _ => false
  | _ => true

end Phase

structure Channel where
  driveHead : Byte
  sectorCount : Byte
  lbaLo : Byte
  lbaMid : Byte
  lbaHi : Byte
  busy : Nat
  phase : Phase

/-- `busy` status answers come before the answer of the next phase; the lengths
are `pauses`, by the number of the period. A transfer is refused at a block
before its data moves; a block that is written may be lost after it has been
taken. -/
structure Controller where
  attached : Byte → Attached
  sectors : Byte → Nat → Bytes
  pauses : Nat → Nat
  refuses : Nat → Nat → Bool
  loses : Nat → Nat → Bool
  periods : Nat
  transfers : Nat
  channel : Bool → Channel

def baseOf (ch : Bool) : Port := if ch then secondaryIo else primaryIo

/-- The channel and the register at a port. -/
def decode (port : Port) : Option (Bool × Nat) :=
  if 0x1F0 ≤ port.toNat ∧ port.toNat < 0x1F8 then some (false, port.toNat - 0x1F0)
  else if 0x170 ≤ port.toNat ∧ port.toNat < 0x178 then some (true, port.toNat - 0x170)
  else none

theorem decode_base (ch : Bool) (reg : Fin 8) : decode (baseOf ch + BitVec.ofNat 16 reg) = some (ch, reg.val) := by
  revert ch reg
  decide

namespace Controller

/-- The drive that is selected on a channel. -/
def selected (c : Controller) (ch : Bool) : Byte :=
  (if ch then 2 else 0) + if (c.channel ch).driveHead &&& 0x10 = 0 then 0 else 1

def setChannel (c : Controller) (ch : Bool) (channel : Channel) : Controller :=
  { c with channel := Function.update c.channel ch channel }

def setPhase (c : Controller) (ch : Bool) (phase : Phase) : Controller :=
  c.setChannel ch { c.channel ch with phase }

def setBusy (c : Controller) (ch : Bool) (busy : Nat) : Controller := c.setChannel ch { c.channel ch with busy }

/-- The next phase, after a busy period. -/
def enter (c : Controller) (ch : Bool) (phase : Phase) : Controller :=
  { c.setChannel ch { c.channel ch with phase, busy := c.pauses c.periods } with periods := c.periods + 1 }

def status (c : Controller) (ch : Bool) : Byte :=
  match c.attached (c.selected ch) with
  | .nothing => 0
  | _ =>
    if 0 < (c.channel ch).busy then 0x80
    else if (c.channel ch).phase.failed then 0x51
    else if (c.channel ch).phase.requests then 0x58
    else 0x50

def poll (c : Controller) (ch : Bool) : Controller := c.setBusy ch ((c.channel ch).busy - 1)

/-- What a transfer does at its next block. -/
def nextBlock (c : Controller) (ch writing : Bool) (number sector count block : Nat) : Controller :=
  c.enter ch (if count ≤ block then .idle false
    else if c.refuses number block then .idle true
    else .data writing number sector count block 0 Bytes.zero)

/-- A block of 512 bytes on the medium. -/
def storeBlock (c : Controller) (drive : Byte) (sector : Nat) (block : Bytes) : Controller :=
  { c with sectors := fun other place =>
      if other = drive ∧ place = sector then Bytes.copy (c.sectors drive sector) 0 block 0 512
      else c.sectors other place }

def identity (c : Controller) (ch : Bool) : Bytes :=
  match c.attached (c.selected ch) with
  | .disk identity => identity
  | _ => Bytes.zero

/-- A read of the data register. -/
def dataWord (c : Controller) (ch : Bool) : BitVec 16 × Controller :=
  if 0 < (c.channel ch).busy then (0xFFFF, c)
  else match (c.channel ch).phase with
    | .identify word =>
      ((c.identity ch).half (2 * word), c.setPhase ch (if word + 1 < 256 then .identify (word + 1) else .idle false))
    | .data false number sector count block word staged =>
      ((c.sectors (c.selected ch) (sector + block)).half (2 * word),
        if word + 1 < 256 then c.setPhase ch (.data false number sector count block (word + 1) staged)
        else c.nextBlock ch false number sector count (block + 1))
    | _ => (0xFFFF, c)

/-- A write of the data register; the last one of a block stores it. -/
def takeWord (c : Controller) (ch : Bool) (value : BitVec 16) : Controller :=
  if 0 < (c.channel ch).busy then c
  else match (c.channel ch).phase with
    | .data true number sector count block word staged =>
      let staged := staged.setHalf (2 * word) value
      if word + 1 < 256 then c.setPhase ch (.data true number sector count block (word + 1) staged)
      else if c.loses number block then c.enter ch (.idle true)
      else (c.storeBlock (c.selected ch) (sector + block) staged).nextBlock ch true number sector count (block + 1)
    | _ => c

/-- The sector that the registers name. -/
def sector (c : Controller) (ch : Bool) : Nat :=
  let r := c.channel ch
  (r.driveHead &&& 0x0F).toNat * 2 ^ 24 + r.lbaHi.toNat * 2 ^ 16 + r.lbaMid.toNat * 2 ^ 8 + r.lbaLo.toNat

/-- The number of sectors; a zero stands for 256. -/
def count (c : Controller) (ch : Bool) : Nat :=
  if (c.channel ch).sectorCount = 0 then 256 else (c.channel ch).sectorCount.toNat

def start (c : Controller) (ch writing : Bool) : Controller :=
  { c.nextBlock ch writing c.transfers (c.sector ch) (c.count ch) 0 with transfers := c.transfers + 1 }

def execute (c : Controller) (ch : Bool) (cmd : Byte) : Controller :=
  match c.attached (c.selected ch) with
  | .nothing => c
  | .packet => c.setPhase ch (.idle true)
  | .disk _ =>
    if cmd = cmdReadPio then c.start ch false
    else if cmd = cmdWritePio then c.start ch true
    else if cmd = cmdCacheFlush then c.enter ch (.idle false)
    else if cmd = cmdIdentify then c.enter ch (.identify 0)
    else c.setPhase ch (.idle true)

/-- A channel that is busy or moves data takes no register. -/
def free (c : Controller) (ch : Bool) : Bool :=
  (c.channel ch).busy = 0 && !(c.channel ch).phase.requests

def takeRegister (c : Controller) (ch : Bool) (reg : Nat) (value : Byte) : Controller :=
  if c.free ch then
    match reg with
    | 2 => c.setChannel ch { c.channel ch with sectorCount := value }
    | 3 => c.setChannel ch { c.channel ch with lbaLo := value }
    | 4 => c.setChannel ch { c.channel ch with lbaMid := value }
    | 5 => c.setChannel ch { c.channel ch with lbaHi := value }
    | 6 => c.setChannel ch { c.channel ch with driveHead := value }
    | 7 => c.execute ch value
    | _ => c
  else c

/-- A drive that takes packets shows a signature in two of the registers. -/
def register (c : Controller) (ch : Bool) (reg : Nat) : Byte :=
  match c.attached (c.selected ch), reg with
  | .packet, 4 => 0x14
  | .packet, 5 => 0xEB
  | _, 4 => (c.channel ch).lbaMid
  | _, 5 => (c.channel ch).lbaHi
  | _, _ => 0xFF

def read (width : Nat) (port : Port) (c : Controller) : BitVec width × Controller :=
  match decode port with
  | none => (BitVec.allOnes width, c)
  | some (ch, reg) =>
    if reg = 0 then ((c.dataWord ch).1.setWidth width, (c.dataWord ch).2)
    else if reg = 7 then ((c.status ch).setWidth width, c.poll ch)
    else ((c.register ch reg).setWidth width, c)

def write (width : Nat) (port : Port) (value : BitVec width) (c : Controller) : Controller :=
  match decode port with
  | none => c
  | some (ch, reg) => if reg = 0 then c.takeWord ch (value.setWidth 16) else c.takeRegister ch reg (value.setWidth 8)

def bus : Bus Controller where
  read := read
  write := write

section Ports

variable (c : Controller) (ch : Bool)

theorem read_status : bus.read 8 (baseOf ch + regStatus) c = (c.status ch, c.poll ch) := by
  change read 8 (baseOf ch + BitVec.ofNat 16 (7 : Fin 8)) c = _
  rw [read, decode_base]
  exact Prod.ext (BitVec.setWidth_eq _) rfl

theorem read_data : bus.read 16 (baseOf ch + regData) c = c.dataWord ch := by
  change read 16 (baseOf ch + BitVec.ofNat 16 (0 : Fin 8)) c = _
  rw [read, decode_base]
  simp

theorem read_register (reg : Fin 8) (plain : reg.val ≠ 0 ∧ reg.val ≠ 7) :
    bus.read 8 (baseOf ch + BitVec.ofNat 16 reg) c = (c.register ch reg, c) := by
  change read 8 _ c = _
  rw [read, decode_base]
  simp [plain.1, plain.2]

theorem write_data (value : BitVec 16) : bus.write 16 (baseOf ch + regData) value c = c.takeWord ch value := by
  change write 16 (baseOf ch + BitVec.ofNat 16 (0 : Fin 8)) value c = _
  rw [write, decode_base]
  simp

theorem write_register (reg : Fin 8) (other : reg.val ≠ 0) (value : Byte) :
    bus.write 8 (baseOf ch + BitVec.ofNat 16 reg) value c = c.takeRegister ch reg value := by
  change write 8 _ value c = _
  rw [write, decode_base]
  simp [other]

/-- The port that is written to lose time belongs to no drive. -/
theorem write_delay (value : Byte) : bus.write 8 0x80 value c = c := rfl

end Ports

end Controller

end MexOS.Drivers.AtaPio
