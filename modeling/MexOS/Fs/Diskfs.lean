import MexOS.Fs.Ata
import MexOS.Machine.Bitmap
import MexOS.Machine.Strings

/-! The disk file system of `fs/diskfs.c`.

A call that reads or writes outside an object has no result: `none`. -/

namespace MexOS.Fs

open MexOS.Machine

def diskfsMagic : Word := 0x6D786673
def inodeTableStart : Word := 33
def dataStart : Word := 545
def maxInodes : Nat := 512
def maxBlocks : Nat := 65536
def maxFilename : Nat := 28
def directBlocks : Nat := 12
def maxFileSize : Word := 6144

def typeFile : Word := 1
def typeDir : Word := 2

/-- The bytes of a `struct diskfs_superblock`. -/
abbrev Superblock := Bytes

namespace Superblock

def magic (superblock : Superblock) : Word := superblock.word 0
def totalInodes (superblock : Superblock) : Word := superblock.word 8
def totalBlocks (superblock : Superblock) : Word := superblock.word 12
def freeInodes (superblock : Superblock) : Word := superblock.word 16
def freeBlocks (superblock : Superblock) : Word := superblock.word 20

def setFreeInodes (superblock : Superblock) (value : Word) : Superblock := superblock.setWord 16 value
def setFreeBlocks (superblock : Superblock) (value : Word) : Superblock := superblock.setWord 20 value

/-- What `diskfs_format` fills in. -/
def fresh : Superblock :=
  (((((((Bytes.zero.setWord 0 diskfsMagic).setWord 4 1).setWord 8 512).setWord 12 65536).setWord 16 511).setWord
    20 65536).setWord 24 0).setWord 28 512

end Superblock

/-- The bytes of a `struct diskfs_inode`. -/
abbrev Inode := Bytes

namespace Inode

/-- `sizeof(struct diskfs_inode)`: 17 words and 68 bytes of padding. -/
def bytes : Nat := 136

def type (inode : Inode) : Word := inode.word 0
def size (inode : Inode) : Word := inode.word 4
def block (inode : Inode) (index : Nat) : Word := inode.word (8 + 4 * index)

def setType (inode : Inode) (value : Word) : Inode := inode.setWord 0 value
def setSize (inode : Inode) (value : Word) : Inode := inode.setWord 4 value
def setBlock (inode : Inode) (index : Nat) (value : Word) : Inode := inode.setWord (8 + 4 * index) value
def setCtime (inode : Inode) (value : Word) : Inode := inode.setWord 56 value
def setMtime (inode : Inode) (value : Word) : Inode := inode.setWord 60 value
def setParentInode (inode : Inode) (value : Word) : Inode := inode.setWord 64 value

/-- A new inode as `diskfs_format` and `diskfs_create` fill it in. -/
def fresh (type parent now : Word) : Inode :=
  let inode : Inode := Bytes.zero
  ((((inode.setType type).setSize 0).setParentInode parent).setCtime now).setMtime now

end Inode

/-- The bytes of a `struct diskfs_dirent`. -/
abbrev Dirent := Bytes

namespace Dirent

/-- `sizeof(struct diskfs_dirent)`. -/
def bytes : Nat := 32

def inode (entry : Dirent) : Word := entry.word 0

/-- The entry `diskfs_create` appends: `strncpy` fills the name up with zeros. -/
def make (ino : Word) (name : CString) : Dirent :=
  Bytes.setWord (fun place => name.bytes.getD (place - 4) 0) 0 ino

/-- `strcmp` of the name from `index` on, against what is left of a string; it
leaves the entry when the 28 bytes match and no terminator came. -/
def nameEquals (entry : Dirent) : Nat → List Byte → Option Bool
  | index, [] => if index < maxFilename then some (entry (4 + index) = 0) else none
  | index, byte :: rest =>
    if index < maxFilename then
      if entry (4 + index) = byte then nameEquals entry (index + 1) rest else some false
    else none

end Dirent

instance cache_neZero : NeZero 8 := ⟨by decide⟩

/-- The statics of `diskfs.c`, and the drives. -/
structure Diskfs where
  ata : Ata
  mountedDrive : Byte
  superblock : Superblock
  inodeBitmap : Bitmap 8
  blockBitmap : Bitmap 8
  inodeCache : Nat → Inode
  inodeCacheNum : Nat → Word
  inodeCacheValid : Nat → Bool
  cacheIdx : Fin 8

namespace Diskfs

def bitmapTest (bitmap : Bitmap 8) (bit : Nat) : Bool := bitmap (bit / 8) &&& 1#8 <<< (bit % 8) != 0

/-- The loop of `bitmap_find_free` from bit `i` on; both bitmaps have 8192
bytes. -/
def bitmapFindFrom (bitmap : Bitmap 8) : Nat → Nat → Option Int
  | 0, _ => some (-1)
  | turns + 1, i =>
    if maxBlocks ≤ i then none
    else if bitmapTest bitmap i then bitmapFindFrom bitmap turns (i + 1)
    else some i

def bitmapFindFree (bitmap : Bitmap 8) (maxBits : Word) : Option Int := bitmapFindFrom bitmap maxBits.toNat 0

def readSuperblock (fs : Diskfs) (drive : Byte) : Int × Diskfs :=
  let (ret, superblock, ata) := fs.ata.readSectors drive 0 1 fs.superblock
  (ret, { fs with superblock, ata })

def writeSuperblock (fs : Diskfs) (drive : Byte) : Int × Diskfs :=
  let (ret, ata) := fs.ata.writeSectors drive 0 1 fs.superblock
  (ret, { fs with ata })

def readBitmaps (fs : Diskfs) (drive : Byte) : Int × Diskfs :=
  let (ret, inodeBitmap, ata) := fs.ata.readSectors drive 1 16 fs.inodeBitmap
  if ret ≠ 0 then (ret, { fs with inodeBitmap, ata })
  else
    let (ret, blockBitmap, ata) := ata.readSectors drive 17 16 fs.blockBitmap
    (ret, { fs with inodeBitmap, blockBitmap, ata })

def writeBitmaps (fs : Diskfs) (drive : Byte) : Int × Diskfs :=
  let (ret, ata) := fs.ata.writeSectors drive 1 16 fs.inodeBitmap
  if ret ≠ 0 then (ret, { fs with ata })
  else
    let (ret, ata) := ata.writeSectors drive 17 16 fs.blockBitmap
    (ret, { fs with ata })

/-- The first entry of the inode cache for `ino`. -/
def cached (fs : Diskfs) (ino : Word) : Option Nat :=
  (List.range 8).find? fun i => fs.inodeCacheValid i && fs.inodeCacheNum i == ino

def inodeSector (ino : Word) : Word := inodeTableStart + ino / 4
def inodeOffset (ino : Word) : Nat := ino.toNat % 4 * 128

/-- Put an inode into the next entry of the cache. -/
def remember (fs : Diskfs) (ino : Word) (inode : Inode) : Diskfs :=
  { fs with
    inodeCacheNum := Function.update fs.inodeCacheNum fs.cacheIdx ino
    inodeCache := Function.update fs.inodeCache fs.cacheIdx inode
    inodeCacheValid := Function.update fs.inodeCacheValid fs.cacheIdx true
    cacheIdx := fs.cacheIdx + 1 }

def readInode (fs : Diskfs) (drive : Byte) (ino : Word) : Option (Except Int Inode × Diskfs) :=
  if maxInodes ≤ ino.toNat then some (.error (-1), fs)
  else match fs.cached ino with
    | some i => some (.ok (fs.inodeCache i), fs)
    | none =>
      let (ret, sectorBuf, ata) := fs.ata.readSectors drive (inodeSector ino) 1 Bytes.zero
      if ret ≠ 0 then some (.error ret, { fs with ata })
      else if 512 < inodeOffset ino + Inode.bytes then none
      else
        let inode := Bytes.zero.copy 0 sectorBuf (inodeOffset ino) Inode.bytes
        some (.ok inode, remember { fs with ata } ino inode)

def writeInode (fs : Diskfs) (drive : Byte) (ino : Word) (inode : Inode) : Option (Int × Diskfs) :=
  if maxInodes ≤ ino.toNat then some (-1, fs)
  else
    let (ret, sectorBuf, ata) := fs.ata.readSectors drive (inodeSector ino) 1 Bytes.zero
    if ret ≠ 0 then some (ret, { fs with ata })
    else if 512 < inodeOffset ino + Inode.bytes then none
    else
      let (ret, ata) := ata.writeSectors drive (inodeSector ino) 1
        (sectorBuf.copy (inodeOffset ino) inode 0 Inode.bytes)
      if ret ≠ 0 then some (ret, { fs with ata })
      else match fs.cached ino with
        | some i => some (0, { fs with ata, inodeCache := Function.update fs.inodeCache i inode })
        | none => some (0, { fs with ata })

def allocBlock (fs : Diskfs) : Option (Int × Diskfs) := do
  let block ← bitmapFindFree fs.blockBitmap fs.superblock.totalBlocks
  if block < 0 then return (-1, fs)
  return (block, { fs with
    blockBitmap := fs.blockBitmap.set block.toNat
    superblock := fs.superblock.setFreeBlocks (fs.superblock.freeBlocks - 1) })

def freeBlock (fs : Diskfs) (block : Word) : Option Diskfs :=
  if block ≥ fs.superblock.totalBlocks then some fs
  else if maxBlocks ≤ block.toNat then none
  else some { fs with
    blockBitmap := fs.blockBitmap.clear block.toNat
    superblock := fs.superblock.setFreeBlocks (fs.superblock.freeBlocks + 1) }

def allocInode (fs : Diskfs) : Option (Int × Diskfs) := do
  let ino ← bitmapFindFree fs.inodeBitmap fs.superblock.totalInodes
  if ino < 0 then return (-1, fs)
  return (ino, { fs with
    inodeBitmap := fs.inodeBitmap.set ino.toNat
    superblock := fs.superblock.setFreeInodes (fs.superblock.freeInodes - 1) })

def freeInode (fs : Diskfs) (ino : Word) : Option Diskfs :=
  if ino ≥ fs.superblock.totalInodes then some fs
  else if maxBlocks ≤ ino.toNat then none
  else some { fs with
    inodeBitmap := fs.inodeBitmap.clear ino.toNat
    superblock := fs.superblock.setFreeInodes (fs.superblock.freeInodes + 1) }

/-- `now` is what the timer shows. -/
def format (fs : Diskfs) (drive : Byte) (now : Word) : Option (Int × Diskfs) := do
  if ¬ fs.ata.driveExists drive then return (-1, fs)
  let fs := { fs with
    superblock := Superblock.fresh
    inodeBitmap := Bitmap.set Bytes.zero 0
    blockBitmap := Bytes.zero }
  let (ret, fs) := fs.writeSuperblock drive
  if ret ≠ 0 then return (-1, fs)
  let (ret, fs) := fs.writeBitmaps drive
  if ret ≠ 0 then return (-1, fs)
  let (ret, fs) ← fs.writeInode drive 0 (Inode.fresh typeDir 0 now)
  if ret ≠ 0 then return (-1, fs)
  return (0, fs)

def mount (fs : Diskfs) (drive : Byte) : Int × Diskfs :=
  if ¬ fs.ata.driveExists drive then (-1, fs)
  else
    let (ret, fs) := fs.readSuperblock drive
    if ret ≠ 0 then (-1, fs)
    else if fs.superblock.magic ≠ diskfsMagic then (-1, fs)
    else
      let (ret, fs) := fs.readBitmaps drive
      if ret ≠ 0 then (-1, fs)
      else (0, { fs with inodeCacheValid := fun _ => false, mountedDrive := drive })

/-- The results of both writes are ignored. -/
def sync (fs : Diskfs) : Int × Diskfs :=
  if fs.mountedDrive = 0xFF then (-1, fs)
  else
    let (_, fs) := fs.writeSuperblock fs.mountedDrive
    let (_, fs) := fs.writeBitmaps fs.mountedDrive
    (0, fs)

/-- How many bytes one turn of the loops below moves, at `position` with
`left` bytes to go. -/
def chunk (position left : Nat) : Nat := if left < 512 - position % 512 then left else 512 - position % 512

/-- One turn for each block pointer, and one that finds no more of them. -/
def maxTurns : Nat := directBlocks + 1

/-- The loop of `diskfs_read`. `size` is the size it has cut already. -/
def readLoop (inode : Inode) (offset size : Word) : Nat → Diskfs → Nat → Bytes → Option (Int × Bytes × Diskfs)
  | 0, _, _, _ => none
  | turns + 1, fs, bytesRead, buffer =>
    let position := (offset + BitVec.ofNat 32 bytesRead).toNat
    let toRead := chunk position (size.toNat - bytesRead)
    if size.toNat ≤ bytesRead then some (bytesRead, buffer, fs)
    else if directBlocks ≤ position / 512 then some (bytesRead, buffer, fs)
    else if inode.block (position / 512) = 0 then some (bytesRead, buffer, fs)
    else
      let (ret, blockBuf, ata) := fs.ata.readSectors fs.mountedDrive (dataStart + inode.block (position / 512)) 1 Bytes.zero
      if ret ≠ 0 then some (-1, buffer, { fs with ata })
      else readLoop inode offset size turns { fs with ata } (bytesRead + toRead)
        (buffer.copy bytesRead blockBuf (position % 512) toRead)

def read (fs : Diskfs) (ino : Word) (buffer : Bytes) (offset size : Word) : Option (Int × Bytes × Diskfs) :=
  if fs.mountedDrive = 0xFF then some (-1, buffer, fs)
  else do
    match ← fs.readInode fs.mountedDrive ino with
    | (.error _, fs) => return (-1, buffer, fs)
    | (.ok inode, fs) =>
      if offset ≥ inode.size then return (0, buffer, fs)
      let size := if offset + size > inode.size then inode.size - offset else size
      readLoop inode offset size maxTurns fs 0 buffer

/-- The pointer that a turn of `diskfs_write` needs: `none` inside when no
block is left. -/
def claimBlock (fs : Diskfs) (inode : Inode) (blockIdx : Nat) : Option (Option Inode × Diskfs) :=
  if inode.block blockIdx = 0 then do
    let (block, fs) ← fs.allocBlock
    if block < 0 then return (none, fs)
    return (some (inode.setBlock blockIdx (BitVec.ofInt 32 block)), fs)
  else some (some inode, fs)

/-- Store `toWrite` bytes into a block from `blockOffset` on; a block that is
not overwritten as a whole is read first. -/
def storeChunk (fs : Diskfs) (block : Word) (blockOffset : Nat) (source : Bytes) (bytesWritten toWrite : Nat) :
    Int × Diskfs :=
  let (ret, blockBuf, ata) :=
    if blockOffset ≠ 0 ∨ toWrite < 512 then fs.ata.readSectors fs.mountedDrive (dataStart + block) 1 Bytes.zero
    else (0, Bytes.zero, fs.ata)
  if ret ≠ 0 then (-1, { fs with ata })
  else
    let (ret, ata) := ata.writeSectors fs.mountedDrive (dataStart + block) 1
      (blockBuf.copy blockOffset source bytesWritten toWrite)
    if ret ≠ 0 then (-1, { fs with ata }) else (0, { fs with ata })

/-- The loop of `diskfs_write`: `none` inside is the early return -1, else the
changed inode and the number of bytes written. -/
def writeLoop (source : Bytes) (offset size : Word) :
    Nat → Diskfs → Inode → Nat → Option (Option (Inode × Nat) × Diskfs)
  | 0, _, _, _ => none
  | turns + 1, fs, inode, bytesWritten =>
    let position := (offset + BitVec.ofNat 32 bytesWritten).toNat
    let toWrite := chunk position (size.toNat - bytesWritten)
    if size.toNat ≤ bytesWritten then some (some (inode, bytesWritten), fs)
    else if directBlocks ≤ position / 512 then some (some (inode, bytesWritten), fs)
    else
      match fs.claimBlock inode (position / 512) with
      | none => none
      | some (none, fs) => some (some (inode, bytesWritten), fs)
      | some (some inode, fs) =>
        match fs.storeChunk (inode.block (position / 512)) (position % 512) source bytesWritten toWrite with
        | (0, fs) => writeLoop source offset size turns fs inode (bytesWritten + toWrite)
        | (_, fs) => some (none, fs)

def write (fs : Diskfs) (ino : Word) (source : Bytes) (offset size now : Word) : Option (Int × Diskfs) :=
  if fs.mountedDrive = 0xFF then some (-1, fs)
  else do
    match ← fs.readInode fs.mountedDrive ino with
    | (.error _, fs) => return (-1, fs)
    | (.ok inode, fs) =>
      let size := if offset + size > maxFileSize then maxFileSize - offset else size
      match ← writeLoop source offset size maxTurns fs inode 0 with
      | (none, fs) => return (-1, fs)
      | (some (inode, bytesWritten), fs) =>
        let last := offset + BitVec.ofNat 32 bytesWritten
        let inode := if last > inode.size then inode.setSize last else inode
        let (_, fs) ← fs.writeInode fs.mountedDrive ino (inode.setMtime now)
        return (bytesWritten, fs)

/-- The loop of `diskfs_lookup` from entry `i` on. `junk i` is what the
uninitialised entry holds before the read of that turn. -/
def lookupLoop (junk : Nat → Dirent) (dirIno : Word) (name : CString) : Nat → Diskfs → Nat → Option (Int × Diskfs)
  | 0, fs, _ => some (-1, fs)
  | turns + 1, fs, i => do
    let (ret, entry, fs) ← fs.read dirIno (junk i) (BitVec.ofNat 32 (i * Dirent.bytes)) (BitVec.ofNat 32 Dirent.bytes)
    if ret < 0 then return (-1, fs)
    if Dirent.inode entry = 0 then lookupLoop junk dirIno name turns fs (i + 1)
    else
      let equal ← Dirent.nameEquals entry 0 name.bytes
      if equal then return ((Dirent.inode entry).toInt, fs)
      lookupLoop junk dirIno name turns fs (i + 1)

def lookup (fs : Diskfs) (junk : Nat → Dirent) (dirIno : Word) (name : CString) : Option (Int × Diskfs) :=
  if fs.mountedDrive = 0xFF then some (-1, fs)
  else do
    match ← fs.readInode fs.mountedDrive dirIno with
    | (.error _, fs) => return (-1, fs)
    | (.ok dir, fs) =>
      if dir.type ≠ typeDir then return (-1, fs)
      lookupLoop junk dirIno name (dir.size.toNat / Dirent.bytes) fs 0

def stat (fs : Diskfs) (ino : Word) : Option (Except Int Inode × Diskfs) :=
  if fs.mountedDrive = 0xFF then some (.error (-1), fs) else fs.readInode fs.mountedDrive ino

/-- `diskfs_create` from `alloc_inode` on, for a parent of `size` bytes.
`created` and `written` are what the timer shows when the inode is filled in and
when the entry is written. -/
def createEntry (fs : Diskfs) (parentIno size : Word) (name : CString) (type created written : Word) :
    Option (Int × Diskfs) := do
  let (ino, fs) ← fs.allocInode
  if ino < 0 then return (-3, fs)
  let (ret, fs) ← fs.writeInode fs.mountedDrive (BitVec.ofInt 32 ino) (Inode.fresh type parentIno created)
  if ret ≠ 0 then return (-1, ← fs.freeInode (BitVec.ofInt 32 ino))
  let (ret, fs) ← fs.write parentIno (Dirent.make (BitVec.ofInt 32 ino) name) size (BitVec.ofNat 32 Dirent.bytes) written
  if ret < 0 then return (-1, ← fs.freeInode (BitVec.ofInt 32 ino))
  return (ino, fs.sync.2)

def create (fs : Diskfs) (junk : Nat → Dirent) (parentIno : Word) (name : CString) (type created written : Word) :
    Option (Int × Diskfs) :=
  if fs.mountedDrive = 0xFF then some (-1, fs)
  else if maxFilename ≤ name.bytes.length then some (-1, fs)
  else do
    match ← fs.readInode fs.mountedDrive parentIno with
    | (.error _, fs) => return (-1, fs)
    | (.ok parent, fs) =>
      if parent.type ≠ typeDir then return (-1, fs)
      let (found, fs) ← fs.lookup junk parentIno name
      if 0 ≤ found then return (-2, fs)
      fs.createEntry parentIno parent.size name type created written

def freeBlocks (fs : Diskfs) (inode : Inode) : Option Diskfs :=
  (List.range directBlocks).foldlM (fun fs i => if inode.block i ≠ 0 then fs.freeBlock (inode.block i) else some fs) fs

/-- The loop of `diskfs_delete` that clears the entry; results of the read and
the write are ignored. -/
def clearLoop (junk : Nat → Dirent) (parentIno ino now : Word) : Nat → Diskfs → Nat → Option Diskfs
  | 0, fs, _ => some fs
  | turns + 1, fs, i => do
    let (_, entry, fs) ← fs.read parentIno (junk i) (BitVec.ofNat 32 (i * Dirent.bytes)) (BitVec.ofNat 32 Dirent.bytes)
    if Dirent.inode entry = ino then
      let (_, fs) ← fs.write parentIno (entry.setWord 0 0) (BitVec.ofNat 32 (i * Dirent.bytes))
        (BitVec.ofNat 32 Dirent.bytes) now
      return fs
    clearLoop junk parentIno ino now turns fs (i + 1)

/-- `diskfs_delete` from the freeing of the blocks on. -/
def deleteInode (fs : Diskfs) (scrap : Nat → Dirent) (parentIno ino : Word) (inode : Inode) (now : Word) :
    Option (Int × Diskfs) := do
  let fs ← fs.freeBlocks inode
  let fs ← fs.freeInode ino
  match ← fs.readInode fs.mountedDrive parentIno with
  | (.error _, fs) => return (-1, fs)
  | (.ok parent, fs) =>
    let fs ← clearLoop scrap parentIno ino now (parent.size.toNat / Dirent.bytes) fs 0
    return (0, fs.sync.2)

/-- `junk` belongs to the entry in `diskfs_lookup`, `scrap` to the one here. -/
def delete (fs : Diskfs) (junk scrap : Nat → Dirent) (parentIno : Word) (name : CString) (now : Word) :
    Option (Int × Diskfs) :=
  if fs.mountedDrive = 0xFF then some (-1, fs)
  else do
    let (found, fs) ← fs.lookup junk parentIno name
    if found < 0 then return (-1, fs)
    match ← fs.readInode fs.mountedDrive (BitVec.ofInt 32 found) with
    | (.error _, fs) => return (-1, fs)
    | (.ok inode, fs) =>
      if inode.type = typeDir ∧ inode.size > 0 then return (-2, fs)
      fs.deleteInode scrap parentIno (BitVec.ofInt 32 found) inode now

end Diskfs

end MexOS.Fs
