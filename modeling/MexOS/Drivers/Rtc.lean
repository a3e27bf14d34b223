import MexOS.Machine.Ports

/-! The real-time clock: `drivers/char/rtc.c`, and a clock that updates its
registers by itself. -/

namespace MexOS.Drivers.Rtc

open MexOS.Machine PortProgram

def portIndex : Port := 0x79
def portData : Port := 0x71
def nmiDisable : Byte := 0x80

def regSeconds : Byte := 0x00
def regMinutes : Byte := 0x02
def regHours : Byte := 0x04
def regWeekday : Byte := 0x06
def regDay : Byte := 0x07
def regMonth : Byte := 0x08
def regYear : Byte := 0x09
def regCentury : Byte := 0x32
def regStatusA : Byte := 0x0A
def regStatusB : Byte := 0x0B
def statusBBinary : Byte := 0x04

/-- `struct rtc_time` -/
structure RtcTime where
  second : Byte
  minute : Byte
  hour : Byte
  day : Byte
  month : Byte
  year : BitVec 16
  weekday : Byte
  deriving DecidableEq, Repr

/-- The registers of a time as one pass reads them. -/
structure Fields where
  second : Byte
  minute : Byte
  hour : Byte
  day : Byte
  month : Byte
  year : Byte
  weekday : Byte
  deriving DecidableEq, Repr

def ioDelay : PortProgram Unit := outb 0x80 0

def selectRegisterNmi (reg : Byte) : PortProgram Unit := do
  outb portIndex (reg ||| nmiDisable)
  ioDelay

def readRegister (reg : Byte) : PortProgram Byte := do
  selectRegisterNmi reg
  inb portData

def writeRegister (reg value : Byte) : PortProgram Unit := do
  selectRegisterNmi reg
  outb portData value
  ioDelay

def bcdToBinary (bcd : Byte) : Byte := (bcd >>> 4) * 10 + (bcd &&& 0x0F)

def binaryToBcd (binary : Byte) : Byte := (binary / 10) <<< 4 ||| binary % 10

def isUpdating : PortProgram Bool := do
  let status ← readRegister regStatusA
  pure (status &&& 0x80 != 0)

def waitUipClear : Nat → PortProgram Bool
  | 0 => pure false
  | left + 1 => do
    if ← isUpdating then
      ioDelay
      waitUipClear left
    else pure true

def readFields : PortProgram Fields := do
  let second ← readRegister regSeconds
  let minute ← readRegister regMinutes
  let hour ← readRegister regHours
  let day ← readRegister regDay
  let month ← readRegister regMonth
  let year ← readRegister regYear
  let weekday ← readRegister regWeekday
  pure { second, minute, hour, day, month, year, weekday }

def Fields.decode (raw : Fields) (binaryMode : Bool) : Fields :=
  if binaryMode then raw
  else
    { second := bcdToBinary raw.second
      minute := bcdToBinary raw.minute
      hour := bcdToBinary raw.hour
      day := bcdToBinary raw.day
      month := bcdToBinary raw.month
      year := bcdToBinary raw.year
      weekday := bcdToBinary raw.weekday }

def decodeCentury (century : Byte) (binaryMode : Bool) : Byte :=
  if binaryMode || century = 0xFF then century else bcdToBinary century

/-- The year with its century, or with 2000 where there is none. -/
def fullYear (year century : Byte) : BitVec 16 :=
  year.setWidth 16 + if century ≠ 0 ∧ century ≠ 0xFF then century.setWidth 16 * 100 else 2000

def Fields.time (fields : Fields) (century : Byte) : RtcTime where
  second := fields.second
  minute := fields.minute
  hour := fields.hour
  day := fields.day
  month := fields.month
  year := fullYear fields.year century
  weekday := fields.weekday

/-- What is compared between two passes. -/
def Fields.agrees (a b : Fields) : Bool :=
  a.second = b.second && a.minute = b.minute && a.hour = b.hour && a.day = b.day && a.month = b.month && a.year = b.year

/-- One turn of the loop; the result of the wait is only logged. -/
def attempt : PortProgram (Option RtcTime) := do
  let _ ← waitUipClear 20000
  let statusB ← readRegister regStatusB
  let binaryMode := statusB &&& statusBBinary != 0
  let a ← readFields
  let century ← readRegister regCentury
  let b ← readFields
  let a := a.decode binaryMode
  let b := b.decode binaryMode
  let century := decodeCentury century binaryMode
  if a.agrees b then pure (some (a.time century)) else pure none

/-- The reading after five turns; it leaves the day of the week as it is. -/
def lastReading : PortProgram RtcTime := do
  let statusB ← readRegister regStatusB
  let binaryMode := statusB &&& statusBBinary != 0
  let raw ← readFields
  let century ← readRegister regCentury
  pure { (raw.decode binaryMode).time (decodeCentury century binaryMode) with weekday := raw.weekday }

def readTimeFrom : Nat → PortProgram RtcTime
  | 0 => lastReading
  | left + 1 => do
    match ← attempt with
    | some time => pure time
    | none => readTimeFrom left

def readTime : PortProgram RtcTime := readTimeFrom 5

def encode (binaryMode : Bool) (value : Byte) : Byte := if binaryMode then value else binaryToBcd value

def writeTime (time : RtcTime) : PortProgram Unit := do
  let statusB ← readRegister regStatusB
  let binaryMode := statusB &&& statusBBinary != 0
  let prevB ← readRegister regStatusB
  writeRegister regStatusB (prevB ||| 0x80)
  ioDelay
  writeRegister regSeconds (encode binaryMode time.second)
  writeRegister regMinutes (encode binaryMode time.minute)
  writeRegister regHours (encode binaryMode time.hour)
  writeRegister regDay (encode binaryMode time.day)
  writeRegister regMonth (encode binaryMode time.month)
  writeRegister regYear (encode binaryMode ((time.year % 100).setWidth 8))
  writeRegister regCentury (encode binaryMode ((time.year / 100).setWidth 8))
  writeRegister regStatusB (prevB &&& 0x7F)

abbrev Registers := Byte → Byte

/-- `due` says how many updates come before an access, by its number; none
does while the bit is set that holds them off. `updating` is the bit that
announces an update. -/
structure Clock where
  registers : Registers
  index : Byte
  advance : Registers → Registers
  due : Nat → Nat
  updating : Nat → Bool
  accesses : Nat
  updates : Nat

namespace Clock

def held (c : Clock) : Bool := c.registers regStatusB &&& 0x80 != 0

/-- The clock at its next access. -/
def pass (c : Clock) : Clock :=
  if c.held then { c with accesses := c.accesses + 1 }
  else { c with
    registers := c.advance^[c.due c.accesses] c.registers
    accesses := c.accesses + 1
    updates := c.updates + c.due c.accesses }

def shown (c : Clock) (reg : Byte) : Byte :=
  if reg = regStatusA then c.registers reg &&& 0x7F ||| if c.updating c.accesses then 0x80 else 0 else c.registers reg

def read (width : Nat) (port : Port) (c : Clock) : BitVec width × Clock :=
  if port = portData then ((c.pass.shown c.index).setWidth width, c.pass) else (BitVec.allOnes width, c.pass)

def write (index : Port) (width : Nat) (port : Port) (value : BitVec width) (c : Clock) : Clock :=
  if port = index then { c.pass with index := value.setWidth 8 &&& 0x7F }
  else if port = portData then { c.pass with registers := Function.update c.pass.registers c.index (value.setWidth 8) }
  else c.pass

/-- A clock whose registers are selected at `index`. -/
def bus (index : Port) : Bus Clock where
  read := read
  write := write index

end Clock

end MexOS.Drivers.Rtc
