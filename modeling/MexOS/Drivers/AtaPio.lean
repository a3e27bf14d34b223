import MexOS.Machine.Bytes
import MexOS.Machine.Ports

/-! The ATA driver (`ata.c`) by the port accesses it makes. -/

namespace MexOS.Drivers.AtaPio

open MexOS.Machine PortProgram

def regData : Port := 0
def regSeccount : Port := 2
def regLbaLo : Port := 3
def regLbaMid : Port := 4
def regLbaHi : Port := 5
def regDrive : Port := 6
def regStatus : Port := 7
def regCommand : Port := 7

def srBsy : Byte := 0x80
def srDrq : Byte := 0x08
def srErr : Byte := 0x01

def cmdReadPio : Byte := 0x20
def cmdWritePio : Byte := 0x30
def cmdCacheFlush : Byte := 0xE7
def cmdIdentify : Byte := 0xEC

def primaryIo : Port := 0x1F0
def primaryCtrl : Port := 0x3F6
def secondaryIo : Port := 0x170
def secondaryCtrl : Port := 0x376

/-- `struct ata_drive` -/
structure Drive where
  present : Bool
  baseIo : Port
  ctrlIo : Port
  driveSelect : Byte
  size : Word
  deriving DecidableEq, Repr

/-- The array `drives`; only the first four are there. -/
abbrev Drives := Nat → Drive

def ioWait : PortProgram Unit := outb 0x80 0

def waitBsyFor (baseIo : Port) : Nat → PortProgram Int
  | 0 => pure (-1)
  | timeout + 1 => do
    let status ← inb (baseIo + regStatus)
    if status &&& srBsy = 0 then pure 0 else waitBsyFor baseIo timeout

def waitBsy (baseIo : Port) : PortProgram Int := waitBsyFor baseIo 100000

def waitDrqFor (baseIo : Port) : Nat → PortProgram Int
  | 0 => pure (-1)
  | timeout + 1 => do
    let status ← inb (baseIo + regStatus)
    if status &&& srErr ≠ 0 then pure (-1)
    else if status &&& srDrq ≠ 0 then pure 0
    else waitDrqFor baseIo timeout

def waitDrq (baseIo : Port) : PortProgram Int := waitDrqFor baseIo 100000

/-- `buf[at] = inw(..)` for the next `count` half words. -/
def readWords (baseIo : Port) : Nat → Nat → Bytes → PortProgram Bytes
  | _, 0, buf => pure buf
  | index, count + 1, buf => do
    let word ← inw (baseIo + regData)
    readWords baseIo (index + 1) count (buf.setHalf (2 * index) word)

/-- `outw(.., buf[at])` for the next `count` half words. -/
def writeWords (baseIo : Port) (buf : Bytes) : Nat → Nat → PortProgram Unit
  | _, 0 => pure ()
  | index, count + 1 => do
    outw (baseIo + regData) (buf.half (2 * index))
    writeWords baseIo buf (index + 1) count

def identify (baseIo : Port) (driveSelect : Byte) : PortProgram Bool := do
  outb (baseIo + regDrive) ((0xA0 : Byte) ||| driveSelect <<< 4)
  ioWait
  outb (baseIo + regCommand) cmdIdentify
  ioWait
  let status ← inb (baseIo + regStatus)
  if status = 0 then pure false
  else if (← waitBsy baseIo) ≠ 0 then pure false
  else if (← inb (baseIo + regLbaMid)) ≠ 0 then pure false
  else if (← inb (baseIo + regLbaHi)) ≠ 0 then pure false
  else if (← waitDrq baseIo) ≠ 0 then pure false
  else
    let identifyData ← readWords baseIo 0 256 Bytes.zero
    let size := (identifyData.half (2 * 61)).setWidth 32 <<< 16 ||| (identifyData.half (2 * 60)).setWidth 32
    pure (size != 0)

/-- The four lines of `ata_init` about one drive, after the `memset`. -/
def detect (drives : Drives) (index : Nat) (baseIo ctrlIo : Port) (driveSelect : Byte) : PortProgram Drives := do
  let present ← identify baseIo driveSelect
  pure (Function.update drives index { present, baseIo, ctrlIo, driveSelect, size := (drives index).size })

def init : PortProgram (Int × Drives) := do
  let drives ← detect (fun _ => ⟨false, 0, 0, 0, 0⟩) 0 primaryIo primaryCtrl 0
  let drives ← detect drives 1 primaryIo primaryCtrl 1
  let drives ← detect drives 2 secondaryIo secondaryCtrl 0
  let drives ← detect drives 3 secondaryIo secondaryCtrl 1
  pure (0, drives)

/-- The registers of a transfer and its command. -/
def command (d : Drive) (lba : Word) (sectorCount cmd : Byte) : PortProgram Unit := do
  outb (d.baseIo + regDrive) ((0xE0 : Byte) ||| d.driveSelect <<< 4 ||| (lba >>> 24 &&& 0x0F).setWidth 8)
  ioWait
  outb (d.baseIo + regSeccount) sectorCount
  outb (d.baseIo + regLbaLo) (lba.setWidth 8)
  outb (d.baseIo + regLbaMid) ((lba >>> 8).setWidth 8)
  outb (d.baseIo + regLbaHi) ((lba >>> 16).setWidth 8)
  outb (d.baseIo + regCommand) cmd

def readBlocks (baseIo : Port) : Nat → Nat → Bytes → PortProgram (Int × Bytes)
  | _, 0, buf => pure (0, buf)
  | i, left + 1, buf => do
    if (← waitDrq baseIo) ≠ 0 then pure (-1, buf)
    else
      let buf ← readWords baseIo (i * 256) 256 buf
      readBlocks baseIo (i + 1) left buf

def readSectors (drives : Drives) (drive : Byte) (lba : Word) (sectorCount : Byte) (buffer : Bytes) :
    PortProgram (Int × Bytes) :=
  if 4 ≤ drive.toNat ∨ (drives drive.toNat).present = false then pure (-1, buffer)
  else if sectorCount = 0 then pure (0, buffer)
  else do
    let d := drives drive.toNat
    if (← waitBsy d.baseIo) ≠ 0 then pure (-1, buffer)
    else
      command d lba sectorCount cmdReadPio
      readBlocks d.baseIo 0 sectorCount.toNat buffer

/-- After the last block the cache is flushed; what the drive says then is not
looked at, except that it is waited for. -/
def writeBlocks (baseIo : Port) (buf : Bytes) : Nat → Nat → PortProgram Int
  | _, 0 => do
    outb (baseIo + regCommand) cmdCacheFlush
    let _ ← waitBsy baseIo
    pure 0
  | i, left + 1 => do
    if (← waitDrq baseIo) ≠ 0 then pure (-1)
    else
      writeWords baseIo buf (i * 256) 256
      writeBlocks baseIo buf (i + 1) left

def writeSectors (drives : Drives) (drive : Byte) (lba : Word) (sectorCount : Byte) (buffer : Bytes) : PortProgram Int :=
  if 4 ≤ drive.toNat ∨ (drives drive.toNat).present = false then pure (-1)
  else if sectorCount = 0 then pure 0
  else do
    let d := drives drive.toNat
    if (← waitBsy d.baseIo) ≠ 0 then pure (-1)
    else
      command d lba sectorCount cmdWritePio
      writeBlocks d.baseIo buffer 0 sectorCount.toNat

def driveExists (drives : Drives) (drive : Byte) : Bool := drive.toNat < 4 && (drives drive.toNat).present

def getDriveSize (drives : Drives) (drive : Byte) : Word :=
  if 4 ≤ drive.toNat ∨ (drives drive.toNat).present = false then 0 else (drives drive.toNat).size

end MexOS.Drivers.AtaPio
