import MexOS.Fs.FileSystem
import MexOS.Machine.Monitored
import MexOS.Mm.AddressSpace

/-! `syscall_handler` of `core/syscall.c` and what it and its callees do with
the addresses in the registers of the caller. -/

namespace MexOS.Core

open MexOS.Machine MexOS.Mm MexOS.Fs

/-- A call of `vmm_check_user_ptr` that returned true, or an access to an
address of the caller. -/
inductive UserAccess where
  | checked (ptr len : Word) (write : Bool)
  | read (address : Word)
  | wrote (address : Word)
deriving DecidableEq, Repr

/-- A part of the handler with its accesses; it stops where the processor
faults or a call does not return. -/
abbrev Handler := Monitored UserAccess

namespace Handler

open Monitored

def checkUserPtr (p : Paging) (ptr len : Word) (write : Bool) : Handler Bool :=
  match p.toVmm.checkUserPtr ptr len write with
  | none => stop
  | some true => ⟨some true, [.checked ptr len write]⟩
  | some false => ⟨some false, []⟩

/-- The byte that the processor finds. A byte that is read twice in a row is
listed once. -/
def loadUser (p : Paging) (address : Word) : Handler Byte := ⟨(p.walk address).map p.mem, [.read address]⟩

def storeUser (p : Paging) (address : Word) (value : Byte) : Handler Paging :=
  ⟨(p.walk address).map fun frame => { p with mem := storeByte p.mem frame value }, [.wrote address]⟩

/-- `memcpy` from the caller, from byte `i` on. -/
def copyFromUser (p : Paging) (address : Word) : Nat → Nat → Handler Unit
  | 0, _ => pure ()
  | left + 1, i => do
    let _ ← loadUser p (address + BitVec.ofNat 32 i)
    copyFromUser p address left (i + 1)

/-- `memcpy` to the caller, from byte `i` on. -/
def copyToUser (address : Word) (bytes : Bytes) : Nat → Paging → Nat → Handler Paging
  | 0, p, _ => pure p
  | left + 1, p, i => do
    let p ← storeUser p (address + BitVec.ofNat 32 i) (bytes i)
    copyToUser address bytes left p (i + 1)

/-- `strcmp(s1, s2)` with a string of the kernel. -/
def strcmpUser (p : Paging) (s1 : Word) : List Byte → Handler Int
  | [] => do
    let c ← loadUser p s1
    pure c.toNat
  | d :: s2 => do
    let c ← loadUser p s1
    if c ≠ 0 ∧ c = d then strcmpUser p (s1 + 1) s2 else pure ((c.toNat : Int) - d.toNat)

/-- The bytes that `strncpy(dest, src, n)` copies before it pads. -/
def strncpyUser (p : Paging) (src : Word) : Nat → Handler (List Byte)
  | 0 => pure []
  | n + 1 => do
    let c ← loadUser p src
    if c = 0 then pure []
    else
      let rest ← strncpyUser p (src + 1) n
      pure (c :: rest)

/-- `%s` in `format_log_message` with so many bytes left in the buffer. -/
def formatUser (p : Paging) (str : Word) : Nat → Handler Unit
  | 0 => do
    let _ ← loadUser p str
    pure ()
  | room + 1 => do
    let c ← loadUser p str
    if c = 0 then pure () else formatUser p (str + 1) room

/-- The path as `resolve_to_diskfs_inode`, or else `resolve_full_path` with
`resolve_path`, takes it from the caller. -/
def resolvePath (p : Paging) (diskEnabled : Bool) (path : Word) : Handler (List Byte) :=
  if diskEnabled then do
    let root ← strcmpUser p path [slash]
    if root = 0 then pure [slash] else strncpyUser p path (fsMaxPath - 1)
  else do
    let c ← loadUser p path
    if c = 0 then pure []
    else
      let root ← strcmpUser p path [slash]
      if root = 0 then pure [slash]
      else
        let c ← loadUser p path
        if c = 0 then pure [] else strncpyUser p path (fsMaxPath - 1)

end Handler

/-- What the handler meets outside the registers: the file system, and what the
calls answer that see no address of the caller. The memory may be another one
when a call that can block comes back. -/
structure Services where
  files : FileSystem
  ambient : Ambient
  fileBuffer : Bytes
  -- what `do_exec` returns once the file is in the buffer
  loaded : Int
  -- the pid of the current task
  current : Option Int
  putchar : Byte → Paging → Paging
  -- the characters that come before `keyboard_has_data` says no
  keyboard : List Byte
  fork : Int
  -- the result of `task_wait`, the status and the memory afterwards
  wait : Int → Option (Int × Word × Paging)
  portCreate : Int → Int
  portDestroy : Int → Int
  -- the port is there and has an owner
  port : Int → Bool
  -- whether the loop of `msg_send` gets to a free slot
  slot : Int → Word → Option (Bool × Paging)
  -- the message that the loop of `msg_receive` gets to
  message : Int → Word → Option (Option Bytes × Paging)
  -- the mode and the framebuffer, where there is one
  vesa : Option (Bytes × Int)
  -- two readings of the clock agree
  steady : Bool
  -- the clock counts in binary
  binary : Bool
  -- what `rtc_read_time` stores, one byte after the other
  time : Nat → Byte

structure Registers where
  eax : Word
  ebx : Word
  ecx : Word
  edx : Word

/-- `sizeof(struct message)` -/
def messageBytes : Nat := 272

/-- `sizeof(struct vesa_mode_info)` -/
def modeInfoBytes : Nat := 32

/-- `sizeof(struct rtc_time)`: the year has two bytes at offset 6. -/
def rtcTimeBytes : Nat := 10

namespace Handler

open Monitored

/-- `fs_read`; the string that it works on is a copy. -/
def fsRead (p : Paging) (services : Services) (path : Word) : Handler Int := do
  let name ← resolvePath p services.files.diskEnabled path
  let (ret, _) ← ofOption (services.files.read (CString.ofBytes name) services.ambient services.fileBuffer
    (BitVec.ofNat 32 fsMaxFileSize))
  pure ret

/-- The warning has 36 bytes in front of the path, in a buffer of 128. -/
def elfLoadFile (p : Paging) (services : Services) (path : Word) : Handler Int := do
  let bytesRead ← fsRead p services path
  if bytesRead < 0 then
    formatUser p path 91
    pure (-1)
  else pure services.loaded

def doExec (p : Paging) (services : Services) (path : Word) : Handler Int :=
  if path = 0 then pure (-1)
  else
    let newPd := p.createAddressSpace
    if newPd.1 = 0 then pure (-1) else elfLoadFile newPd.2 services path

/-- The loop of `SYS_WRITE` from byte `i` on. -/
def writeLoop (services : Services) (str : Word) : Nat → Paging → Nat → Handler Int
  | 0, _, i => pure i
  | left + 1, p, i => do
    let c ← loadUser p (str + BitVec.ofNat 32 i)
    if c = 0 then pure i else writeLoop services str left (services.putchar c p) (i + 1)

/-- The loop of `SYS_READ` with `left` bytes to go. -/
def readLoop (buf : Word) : Nat → Paging → Nat → List Byte → Handler Int
  | 0, _, count, _ => pure count
  | _ + 1, _, count, [] => pure count
  | left + 1, p, count, char :: keyboard => do
    let p ← storeUser p (buf + BitVec.ofNat 32 count) char
    readLoop buf left p (count + 1) keyboard

def msgSend (services : Services) (portId : Int) (msg flags : Word) : Handler Int :=
  if ¬ services.port portId then pure (-1)
  else if msg = 0 then pure (-1)
  else do
    let (free, p) ← ofOption (services.slot portId flags)
    if free then
      copyFromUser p msg messageBytes 0
      pure 0
    else pure (-2)

def msgReceive (services : Services) (portId : Int) (msg flags : Word) : Handler Int :=
  if ¬ services.port portId then pure (-1)
  else if msg = 0 then pure (-1)
  else do
    let (message, p) ← ofOption (services.message portId flags)
    match message with
    | none => pure (-2)
    | some bytes => do
      let _ ← copyToUser msg bytes messageBytes p 0
      pure 0

/-- Assignments to the bytes at these offsets, the first of them the `turn`-th
of the call. -/
def storeFields (services : Services) (time : Word) : Nat → Paging → List Nat → Handler Paging
  | _, p, [] => pure p
  | turn, p, offset :: rest => do
    let p ← storeUser p (time + BitVec.ofNat 32 offset) (services.time turn)
    storeFields services time (turn + 1) p rest

def loadFields (p : Paging) (time : Word) : List Nat → Handler Unit
  | [] => pure ()
  | offset :: rest => do
    let _ ← loadUser p (time + BitVec.ofNat 32 offset)
    loadFields p time rest

/-- `time->field = bcd_to_binary(time->field)`, for the bytes of one field after
the other. -/
def convertFields (services : Services) (time : Word) : Nat → Paging → List (List Nat) → Handler Paging
  | _, p, [] => pure p
  | turn, p, field :: rest => do
    loadFields p time field
    let p ← storeFields services time turn p field
    convertFields services time (turn + field.length) p rest

/-- The fields of `struct rtc_time` from the second to the weekday. -/
def rtcFields : List (List Nat) := [[0], [1], [2], [3], [4], [6, 7], [8]]

def rtcReadTime (p : Paging) (services : Services) (time : Word) : Handler Unit := do
  let p ← storeFields services time 0 p rtcFields.flatten
  if services.steady then pure ()
  else
    let p ← convertFields services time 8 p (if services.binary then [] else rtcFields.take 6)
    let _ ← convertFields services time 15 p [[6, 7]]
    pure ()

/-- The fields are read to set the clock and again for the log. -/
def rtcWriteTime (p : Paging) (time : Word) : Handler Unit := do
  loadFields p time [0, 1, 2, 3, 4, 6, 7]
  loadFields p time [6, 7, 4, 3, 2, 1, 0]

def syscallHandler (p : Paging) (services : Services) (regs : Registers) : Handler Int :=
  match regs.eax.toNat with
  | 0 => pure 0
  | 1 => do
    let valid ← checkUserPtr p regs.ebx regs.ecx false
    if ¬ valid then pure (-1) else writeLoop services regs.ebx regs.ecx.toNat p 0
  | 2 => do
    let valid ← checkUserPtr p regs.ebx regs.ecx true
    if ¬ valid then pure (-1) else readLoop regs.ebx regs.ecx.toNat p 0 services.keyboard
  | 3 => pure 0
  | 4 => pure (services.current.getD (-1))
  | 5 => pure services.fork
  | 6 => do
    let (result, status, p) ← ofOption (services.wait regs.ebx.toInt)
    if regs.ecx ≠ 0 then
      let valid ← checkUserPtr p regs.ecx 4 true
      if valid then
        let _ ← copyToUser regs.ecx (fun lane => status.extractLsb' (8 * lane) 8) 4 p 0
        pure result
      else pure result
    else pure result
  | 7 => do
    let valid ← checkUserPtr p regs.ebx 1 false
    if ¬ valid then pure (-1) else doExec p services regs.ebx
  | 10 => do
    let valid ← checkUserPtr p regs.ecx (BitVec.ofNat 32 messageBytes) false
    if ¬ valid then pure (-1) else msgSend services regs.ebx.toInt regs.ecx regs.edx
  | 11 => do
    let valid ← checkUserPtr p regs.ecx (BitVec.ofNat 32 messageBytes) true
    if ¬ valid then pure (-1) else msgReceive services regs.ebx.toInt regs.ecx regs.edx
  | 12 => pure ((services.current.map services.portCreate).getD (-1))
  | 13 => pure (services.portDestroy regs.ebx.toInt)
  | 14 => if regs.ebx = 2 ∧ regs.ecx = 0 then pure 0 else pure (-1)
  | 15 =>
    match services.vesa with
    | none => pure 0
    | some (mode, framebuffer) => do
      let valid ← checkUserPtr p regs.ebx (BitVec.ofNat 32 modeInfoBytes) true
      if ¬ valid then pure (-1)
      else
        let _ ← copyToUser regs.ebx mode modeInfoBytes p 0
        pure framebuffer
  | 16 => do
    let valid ← checkUserPtr p regs.ebx (BitVec.ofNat 32 rtcTimeBytes) true
    if ¬ valid then pure (-1)
    else
      rtcReadTime p services regs.ebx
      pure 0
  | 17 => do
    let valid ← checkUserPtr p regs.ebx (BitVec.ofNat 32 rtcTimeBytes) false
    if ¬ valid then pure (-1)
    else
      rtcWriteTime p regs.ebx
      pure 0
  | _ => pure (-1)

end Handler

end MexOS.Core
