import MexOS.Machine.Ports

/-! The configuration accesses and the enumeration of `drivers/bus/pci.c`, and
the host bridge that answers them. -/

namespace MexOS.Drivers.Pci

open MexOS.Machine PortProgram

def configAddressPort : Port := 0xCF8
def configDataPort : Port := 0xCFC
def vendorInvalid : BitVec 16 := 0xFFFF
def maxDevice : Nat := 32
def maxFunction : Nat := 8

def regVendorId : Byte := 0x00
def regDeviceId : Byte := 0x02
def regCommand : Byte := 0x04
def regRevision : Byte := 0x08
def regProgIf : Byte := 0x09
def regSubclass : Byte := 0x0A
def regClass : Byte := 0x0B
def regHeaderType : Byte := 0x0E
def regBar0 : Byte := 0x10
def regInterruptLine : Byte := 0x3C
def regInterruptPin : Byte := 0x3D

/-- `struct pci_device`, without the link of the list. -/
structure PciDevice where
  bus : Byte
  device : Byte
  function : Byte
  vendorId : BitVec 16
  deviceId : BitVec 16
  classCode : Byte
  subclass : Byte
  progIf : Byte
  revision : Byte
  interruptLine : Byte
  interruptPin : Byte
  bar : List Word
  deriving DecidableEq, Repr

/-- `pci_device_list`, the newest device first, and how often memory has been
asked for. -/
structure Devices where
  list : List PciDevice
  allocations : Nat

section Access

variable (bus device function offset : Byte)

def configAddress : Word :=
  bus.setWidth 32 <<< 16 ||| device.setWidth 32 <<< 11 ||| function.setWidth 32 <<< 8 ||| (offset &&& 0xFC).setWidth 32
    ||| (0x80000000 : Word)

def configReadByte : PortProgram Byte := do
  outl configAddressPort (configAddress bus device function offset)
  let data ← inl configDataPort
  pure ((data >>> ((offset &&& 3).toNat * 8)).setWidth 8)

def configReadWord : PortProgram (BitVec 16) := do
  outl configAddressPort (configAddress bus device function offset)
  let data ← inl configDataPort
  pure ((data >>> ((offset &&& 2).toNat * 8)).setWidth 16)

def configReadDword : PortProgram Word := do
  outl configAddressPort (configAddress bus device function offset)
  inl configDataPort

def configWriteByte (value : Byte) : PortProgram Unit := do
  outl configAddressPort (configAddress bus device function offset)
  let data ← inl configDataPort
  let shift := (offset &&& 3).toNat * 8
  outl configDataPort (data &&& ~~~((0xFF : Word) <<< shift) ||| value.setWidth 32 <<< shift)

def configWriteWord (value : BitVec 16) : PortProgram Unit := do
  outl configAddressPort (configAddress bus device function offset)
  let data ← inl configDataPort
  let shift := (offset &&& 2).toNat * 8
  outl configDataPort (data &&& ~~~((0xFFFF : Word) <<< shift) ||| value.setWidth 32 <<< shift)

def configWriteDword (value : Word) : PortProgram Unit := do
  outl configAddressPort (configAddress bus device function offset)
  outl configDataPort value

end Access

section Enumeration

variable (kmalloc : Nat → Bool)

/-- The six base address registers. -/
def readBars (bus device function : Byte) : List Nat → PortProgram (List Word)
  | [] => pure []
  | i :: rest => do
    let bar ← configReadDword bus device function (regBar0 + BitVec.ofNat 8 (i * 4))
    let bars ← readBars bus device function rest
    pure (bar :: bars)

def checkFunction (bus device function : Byte) (found : Devices) : PortProgram Devices := do
  let vendorId ← configReadWord bus device function regVendorId
  if vendorId = vendorInvalid then pure found
  else if kmalloc found.allocations = false then pure { found with allocations := found.allocations + 1 }
  else
    let deviceId ← configReadWord bus device function regDeviceId
    let classCode ← configReadByte bus device function regClass
    let subclass ← configReadByte bus device function regSubclass
    let progIf ← configReadByte bus device function regProgIf
    let revision ← configReadByte bus device function regRevision
    let interruptLine ← configReadByte bus device function regInterruptLine
    let interruptPin ← configReadByte bus device function regInterruptPin
    let bar ← readBars bus device function (List.range 6)
    let dev : PciDevice := { bus, device, function, vendorId, deviceId, classCode, subclass, progIf, revision,
                             interruptLine, interruptPin, bar }
    pure { list := dev :: found.list, allocations := found.allocations + 1 }

def checkDevice (bus device : Byte) (found : Devices) : PortProgram Devices := do
  let vendorId ← configReadWord bus device 0 regVendorId
  if vendorId = vendorInvalid then pure found
  else
    let found ← checkFunction kmalloc bus device 0 found
    let headerType ← configReadByte bus device 0 regHeaderType
    if headerType &&& 0x80 ≠ 0 then
      (List.range' 1 (maxFunction - 1)).foldlM (fun found function => do
        let vendorId ← configReadWord bus device (BitVec.ofNat 8 function) regVendorId
        if vendorId ≠ vendorInvalid then checkFunction kmalloc bus device (BitVec.ofNat 8 function) found
        else pure found) found
    else pure found

def checkBus (bus : Byte) (found : Devices) : PortProgram Devices :=
  (List.range maxDevice).foldlM (fun found device => checkDevice kmalloc bus (BitVec.ofNat 8 device) found) found

/-- `pci_init`, without the count that it logs. -/
def init : PortProgram Devices := do
  let found : Devices := ⟨[], 0⟩
  let headerType ← configReadByte 0 0 0 regHeaderType
  if headerType &&& 0x80 = 0 then checkBus kmalloc 0 found
  else
    (List.range maxFunction).foldlM (fun found function => do
      let vendorId ← configReadWord 0 0 (BitVec.ofNat 8 function) regVendorId
      if vendorId ≠ vendorInvalid then checkBus kmalloc (BitVec.ofNat 8 function) found else pure found) found

end Enumeration

/-- The loops of `pci_find_device_by_class` and `pci_find_device_by_id`. -/
def findDevice (matching : PciDevice → Bool) : List PciDevice → Option PciDevice
  | [] => none
  | dev :: rest => if matching dev then some dev else findDevice matching rest

def findDeviceByClass (list : List PciDevice) (classCode subclass : Byte) : Option PciDevice :=
  findDevice (fun dev => dev.classCode = classCode && dev.subclass = subclass) list

def findDeviceById (list : List PciDevice) (vendorId deviceId : BitVec 16) : Option PciDevice :=
  findDevice (fun dev => dev.vendorId = vendorId && dev.deviceId = deviceId) list

def enableBusMastering (dev : PciDevice) : PortProgram Unit := do
  let command ← configReadWord dev.bus dev.device dev.function regCommand
  configWriteWord dev.bus dev.device dev.function regCommand (command ||| 0x04)

/-- The place of a function in configuration space. -/
structure Slot where
  bus : Byte
  device : BitVec 5
  function : BitVec 3
  deriving DecidableEq, Repr

/-- The configuration space by registers of 32 bits; a place where there is no
function reads as ones. A write changes the bits of `plain` to those written and
clears those of `clears` that are written as one; the others keep what they are. -/
structure Host where
  address : Word
  registers : Slot → BitVec 6 → Word
  plain : Slot → BitVec 6 → Word
  clears : Slot → BitVec 6 → Word

namespace Host

/-- The function and the register that the address names. -/
def slot (address : Word) : Slot := ⟨address.extractLsb' 16 8, address.extractLsb' 11 5, address.extractLsb' 8 3⟩

def register (address : Word) : BitVec 6 := address.extractLsb' 2 6

def accept (h : Host) (slot : Slot) (reg : BitVec 6) (written : Word) : Word :=
  written &&& h.plain slot reg ||| h.registers slot reg &&& ~~~h.plain slot reg &&& ~~~(written &&& h.clears slot reg)

def store (h : Host) (slot : Slot) (reg : BitVec 6) (written : Word) : Host :=
  { h with registers :=
      Function.update h.registers slot (Function.update (h.registers slot) reg (h.accept slot reg written)) }

def read (width : Nat) (port : Port) (h : Host) : BitVec width × Host :=
  if port = configDataPort ∧ h.address.msb = true then ((h.registers (slot h.address) (register h.address)).setWidth width, h)
  else if port = configAddressPort then (h.address.setWidth width, h)
  else (BitVec.allOnes width, h)

def write (width : Nat) (port : Port) (value : BitVec width) (h : Host) : Host :=
  if port = configAddressPort then { h with address := value.setWidth 32 }
  else if port = configDataPort ∧ h.address.msb = true then h.store (slot h.address) (register h.address) (value.setWidth 32)
  else h

def bus : Bus Host where
  read := read
  write := write

end Host

end MexOS.Drivers.Pci
