import MexOS.Machine.Memory

/-! The state and the page walk of `mm/vmm.c`. Directories and tables are read
from memory at the addresses `phys_to_virt` returns. -/

namespace MexOS.Mm

open MexOS.Machine

def pageSize : Word := 0x1000
def kernelVirtualBase : Word := 0xC0000000
def userSpaceEnd : Word := 0xBFFFFFFF

def pagePresent : Word := 0x001
def pageWrite : Word := 0x002
def pageUser : Word := 0x004

def pageDirectoryIndex (address : Word) : Word := (address >>> 22) &&& 0x3FF
def pageTableIndex (address : Word) : Word := (address >>> 12) &&& 0x3FF

/-- A pointer is its 32-bit value; zero is NULL. -/
structure Vmm where
  mem : Memory
  kernelDirectory : Word
  currentDirectory : Word
  kernelDirectoryPhys : Word

namespace Vmm

def physToVirt (vmm : Vmm) (phys : Word) : Word :=
  if vmm.kernelDirectoryPhys = 0 then phys
  else if vmm.kernelDirectory < kernelVirtualBase then phys
  else
    let offset := vmm.kernelDirectory - vmm.kernelDirectoryPhys
    phys + offset

/-- `dir[PAGE_DIRECTORY_INDEX(address)]` of the directory at `pageDir`. -/
def directoryEntry (vmm : Vmm) (pageDir address : Word) : Word :=
  loadWord vmm.mem (vmm.physToVirt pageDir + 4 * pageDirectoryIndex address)

/-- `table[PAGE_TABLE_INDEX(address)]` of the table that a directory entry
points to. -/
def tableEntry (vmm : Vmm) (entry address : Word) : Word :=
  let tablePhys := entry &&& ~~~0xFFF
  loadWord vmm.mem (vmm.physToVirt tablePhys + 4 * pageTableIndex address)

/-- The tests that one turn of the loop of `vmm_check_user_ptr` makes. -/
def checkPage (vmm : Vmm) (pageDir page : Word) (write : Bool) : Bool :=
  let directory := vmm.directoryEntry pageDir page
  if directory &&& pagePresent = 0 then false
  else
    let entry := vmm.tableEntry directory page
    if entry &&& pagePresent = 0 then false
    else if entry &&& pageUser = 0 then false
    else if write && entry &&& pageWrite == 0 then false
    else true

/-- The loop of `vmm_check_user_ptr`; `none` when it takes more turns than
there are pages. -/
def checkPages (vmm : Vmm) (pageDir last : Word) (write : Bool) : Nat → Word → Option Bool
  | 0, _ => none
  | fuel + 1, page =>
    if page ≤ last then
      if vmm.checkPage pageDir page write then
        vmm.checkPages pageDir last write fuel (page + pageSize)
      else some false
    else some true

def checkUserPtr (vmm : Vmm) (ptr len : Word) (write : Bool) : Option Bool :=
  if ptr = 0 then some false
  else if len = 0 then some true
  else
    let last := ptr + len - 1
    if userSpaceEnd < ptr ∨ userSpaceEnd < last then some false
    else if vmm.currentDirectory = 0 then some false
    else vmm.checkPages vmm.currentDirectory last write (2 ^ 20 + 1) (ptr &&& ~~~0xFFF)

end Vmm

end MexOS.Mm
