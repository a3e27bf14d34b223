import MexOS.Fs.Remount
import MexOS.Machine.Monitored

/-! The calls of `diskfs.c` with their accesses to the bitmaps and to the sectors
for data. Without these they are the calls of the model. -/

namespace MexOS.Fs

open MexOS.Machine

/-- The index into a bitmap, or the number of a sector for data. -/
inductive DiskAccess where
  | bitmap (index : Nat)
  | data (sector : Word)
  deriving DecidableEq

abbrev Watched := Monitored DiskAccess

namespace Watched

open Monitored Diskfs

def bitmapFindFrom (bitmap : Bitmap 8) : Nat → Nat → Watched Int
  | 0, _ => pure (-1)
  | turns + 1, i => do
    tell (.bitmap (i / 8))
    if maxBlocks ≤ i then stop
    else if bitmapTest bitmap i then bitmapFindFrom bitmap turns (i + 1)
    else pure i

def bitmapFindFree (bitmap : Bitmap 8) (maxBits : Word) : Watched Int := bitmapFindFrom bitmap maxBits.toNat 0

def allocBlock (fs : Diskfs) : Watched (Int × Diskfs) := do
  let block ← bitmapFindFree fs.blockBitmap fs.superblock.totalBlocks
  if block < 0 then pure (-1, fs)
  else do
    tell (.bitmap (block.toNat / 8))
    pure (block, { fs with
      blockBitmap := fs.blockBitmap.set block.toNat
      superblock := fs.superblock.setFreeBlocks (fs.superblock.freeBlocks - 1) })

def freeBlock (fs : Diskfs) (block : Word) : Watched Diskfs :=
  if block ≥ fs.superblock.totalBlocks then pure fs
  else do
    tell (.bitmap (block.toNat / 8))
    ofOption (fs.freeBlock block)

def allocInode (fs : Diskfs) : Watched (Int × Diskfs) := do
  let ino ← bitmapFindFree fs.inodeBitmap fs.superblock.totalInodes
  if ino < 0 then pure (-1, fs)
  else do
    tell (.bitmap (ino.toNat / 8))
    pure (ino, { fs with
      inodeBitmap := fs.inodeBitmap.set ino.toNat
      superblock := fs.superblock.setFreeInodes (fs.superblock.freeInodes - 1) })

def freeInode (fs : Diskfs) (ino : Word) : Watched Diskfs :=
  if ino ≥ fs.superblock.totalInodes then pure fs
  else do
    tell (.bitmap (ino.toNat / 8))
    ofOption (fs.freeInode ino)

def readLoop (inode : Inode) (offset size : Word) : Nat → Diskfs → Nat → Bytes → Watched (Int × Bytes × Diskfs)
  | 0, _, _, _ => stop
  | turns + 1, fs, bytesRead, buffer =>
    let position := (offset + BitVec.ofNat 32 bytesRead).toNat
    let toRead := chunk position (size.toNat - bytesRead)
    if size.toNat ≤ bytesRead then pure (bytesRead, buffer, fs)
    else if directBlocks ≤ position / 512 then pure (bytesRead, buffer, fs)
    else if inode.block (position / 512) = 0 then pure (bytesRead, buffer, fs)
    else do
      tell (.data (dataStart + inode.block (position / 512)))
      let (ret, blockBuf, ata) := fs.ata.readSectors fs.mountedDrive (dataStart + inode.block (position / 512)) 1 Bytes.zero
      if ret ≠ 0 then pure (-1, buffer, { fs with ata })
      else
        let buffer := buffer.copy bytesRead blockBuf (position % 512) toRead
        readLoop inode offset size turns { fs with ata } (bytesRead + toRead) buffer

def read (fs : Diskfs) (ino : Word) (buffer : Bytes) (offset size : Word) : Watched (Int × Bytes × Diskfs) :=
  if fs.mountedDrive = 0xFF then pure (-1, buffer, fs)
  else do
    match ← ofOption (fs.readInode fs.mountedDrive ino) with
    | (.error _, fs) => pure (-1, buffer, fs)
    | (.ok inode, fs) =>
      if offset ≥ inode.size then pure (0, buffer, fs)
      else
        let size := if offset + size > inode.size then inode.size - offset else size
        readLoop inode offset size maxTurns fs 0 buffer

def claimBlock (fs : Diskfs) (inode : Inode) (blockIdx : Nat) : Watched (Option Inode × Diskfs) :=
  if inode.block blockIdx = 0 then do
    let (block, fs) ← allocBlock fs
    if block < 0 then pure (none, fs)
    else pure (some (inode.setBlock blockIdx (BitVec.ofInt 32 block)), fs)
  else pure (some inode, fs)

/-- The block is read only when it is not overwritten as a whole. -/
def storeChunk (fs : Diskfs) (block : Word) (blockOffset : Nat) (source : Bytes) (bytesWritten toWrite : Nat) :
    Watched (Int × Diskfs) := do
  tell (.data (dataStart + block))
  pure (fs.storeChunk block blockOffset source bytesWritten toWrite)

def writeLoop (source : Bytes) (offset size : Word) :
    Nat → Diskfs → Inode → Nat → Watched (Option (Inode × Nat) × Diskfs)
  | 0, _, _, _ => stop
  | turns + 1, fs, inode, bytesWritten =>
    let position := (offset + BitVec.ofNat 32 bytesWritten).toNat
    let toWrite := chunk position (size.toNat - bytesWritten)
    if size.toNat ≤ bytesWritten then pure (some (inode, bytesWritten), fs)
    else if directBlocks ≤ position / 512 then pure (some (inode, bytesWritten), fs)
    else do
      match ← claimBlock fs inode (position / 512) with
      | (none, fs) => pure (some (inode, bytesWritten), fs)
      | (some inode, fs) =>
        match ← storeChunk fs (inode.block (position / 512)) (position % 512) source bytesWritten toWrite with
        | (0, fs) => writeLoop source offset size turns fs inode (bytesWritten + toWrite)
        | (_, fs) => pure (none, fs)

def write (fs : Diskfs) (ino : Word) (source : Bytes) (offset size now : Word) : Watched (Int × Diskfs) :=
  if fs.mountedDrive = 0xFF then pure (-1, fs)
  else do
    match ← ofOption (fs.readInode fs.mountedDrive ino) with
    | (.error _, fs) => pure (-1, fs)
    | (.ok inode, fs) =>
      let size := if offset + size > maxFileSize then maxFileSize - offset else size
      match ← writeLoop source offset size maxTurns fs inode 0 with
      | (none, fs) => pure (-1, fs)
      | (some (inode, bytesWritten), fs) =>
        let last := offset + BitVec.ofNat 32 bytesWritten
        let inode := if last > inode.size then inode.setSize last else inode
        let (_, fs) ← ofOption (fs.writeInode fs.mountedDrive ino (inode.setMtime now))
        pure (bytesWritten, fs)

def lookupLoop (junk : Nat → Dirent) (dirIno : Word) (name : CString) : Nat → Diskfs → Nat → Watched (Int × Diskfs)
  | 0, fs, _ => pure (-1, fs)
  | turns + 1, fs, i => do
    let (ret, entry, fs) ← read fs dirIno (junk i) (BitVec.ofNat 32 (i * Dirent.bytes)) (BitVec.ofNat 32 Dirent.bytes)
    if ret < 0 then pure (-1, fs)
    else if Dirent.inode entry = 0 then lookupLoop junk dirIno name turns fs (i + 1)
    else do
      let equal ← ofOption (Dirent.nameEquals entry 0 name.bytes)
      if equal then pure ((Dirent.inode entry).toInt, fs)
      else lookupLoop junk dirIno name turns fs (i + 1)

def lookup (fs : Diskfs) (junk : Nat → Dirent) (dirIno : Word) (name : CString) : Watched (Int × Diskfs) :=
  if fs.mountedDrive = 0xFF then pure (-1, fs)
  else do
    match ← ofOption (fs.readInode fs.mountedDrive dirIno) with
    | (.error _, fs) => pure (-1, fs)
    | (.ok dir, fs) =>
      if dir.type ≠ typeDir then pure (-1, fs)
      else lookupLoop junk dirIno name (dir.size.toNat / Dirent.bytes) fs 0

def createEntry (fs : Diskfs) (parentIno size : Word) (name : CString) (type created written : Word) :
    Watched (Int × Diskfs) := do
  let (ino, fs) ← allocInode fs
  if ino < 0 then pure (-3, fs)
  else do
    let (ret, fs) ← ofOption (fs.writeInode fs.mountedDrive (BitVec.ofInt 32 ino) (Inode.fresh type parentIno created))
    if ret ≠ 0 then do
      let fs ← freeInode fs (BitVec.ofInt 32 ino)
      pure (-1, fs)
    else do
      let (ret, fs) ←
        write fs parentIno (Dirent.make (BitVec.ofInt 32 ino) name) size (BitVec.ofNat 32 Dirent.bytes) written
      if ret < 0 then do
        let fs ← freeInode fs (BitVec.ofInt 32 ino)
        pure (-1, fs)
      else pure (ino, fs.sync.2)

def create (fs : Diskfs) (junk : Nat → Dirent) (parentIno : Word) (name : CString) (type created written : Word) :
    Watched (Int × Diskfs) :=
  if fs.mountedDrive = 0xFF then pure (-1, fs)
  else if maxFilename ≤ name.bytes.length then pure (-1, fs)
  else do
    match ← ofOption (fs.readInode fs.mountedDrive parentIno) with
    | (.error _, fs) => pure (-1, fs)
    | (.ok parent, fs) =>
      if parent.type ≠ typeDir then pure (-1, fs)
      else do
        let (found, fs) ← lookup fs junk parentIno name
        if 0 ≤ found then pure (-2, fs) else createEntry fs parentIno parent.size name type created written

def freeBlocksFrom (inode : Inode) : List Nat → Diskfs → Watched Diskfs
  | [], fs => pure fs
  | i :: rest, fs =>
    if inode.block i ≠ 0 then do
      let fs ← freeBlock fs (inode.block i)
      freeBlocksFrom inode rest fs
    else freeBlocksFrom inode rest fs

def clearLoop (junk : Nat → Dirent) (parentIno ino now : Word) : Nat → Diskfs → Nat → Watched Diskfs
  | 0, fs, _ => pure fs
  | turns + 1, fs, i => do
    let (_, entry, fs) ← read fs parentIno (junk i) (BitVec.ofNat 32 (i * Dirent.bytes)) (BitVec.ofNat 32 Dirent.bytes)
    if Dirent.inode entry = ino then do
      let (_, fs) ← write fs parentIno (entry.setWord 0 0) (BitVec.ofNat 32 (i * Dirent.bytes))
        (BitVec.ofNat 32 Dirent.bytes) now
      pure fs
    else clearLoop junk parentIno ino now turns fs (i + 1)

def deleteInode (fs : Diskfs) (scrap : Nat → Dirent) (parentIno ino : Word) (inode : Inode) (now : Word) :
    Watched (Int × Diskfs) := do
  let fs ← freeBlocksFrom inode (List.range directBlocks) fs
  let fs ← freeInode fs ino
  match ← ofOption (fs.readInode fs.mountedDrive parentIno) with
  | (.error _, fs) => pure (-1, fs)
  | (.ok parent, fs) => do
    let fs ← clearLoop scrap parentIno ino now (parent.size.toNat / Dirent.bytes) fs 0
    pure (0, fs.sync.2)

def delete (fs : Diskfs) (junk scrap : Nat → Dirent) (parentIno : Word) (name : CString) (now : Word) :
    Watched (Int × Diskfs) :=
  if fs.mountedDrive = 0xFF then pure (-1, fs)
  else do
    let (found, fs) ← lookup fs junk parentIno name
    if found < 0 then pure (-1, fs)
    else do
      match ← ofOption (fs.readInode fs.mountedDrive (BitVec.ofInt 32 found)) with
      | (.error _, fs) => pure (-1, fs)
      | (.ok inode, fs) =>
        if inode.type = typeDir ∧ inode.size > 0 then pure (-2, fs)
        else deleteInode fs scrap parentIno (BitVec.ofInt 32 found) inode now

def request : Request → Diskfs → Watched (Reply × Diskfs)
  | .change (.write ino source offset size now), fs => do
    let (ret, fs) ← write fs ino source offset size now
    pure (.code ret, fs)
  | .change (.create junk parentIno name type created written), fs => do
    let (ret, fs) ← create fs junk parentIno name type created written
    pure (.code ret, fs)
  | .change (.delete junk scrap parentIno name now), fs => do
    let (ret, fs) ← delete fs junk scrap parentIno name now
    pure (.code ret, fs)
  | .read ino buffer offset size, fs => do
    let (ret, buffer, fs) ← read fs ino buffer offset size
    pure (.data ret buffer, fs)
  | .stat ino, fs => ofOption ((Request.stat ino).run fs)
  | .lookup junk dirIno name, fs => do
    let (ret, fs) ← lookup fs junk dirIno name
    pure (.code ret, fs)

/-- One request after the other; the accesses of one that stops are seen as
well. -/
def run : List Request → Diskfs → Watched Diskfs
  | [], fs => pure fs
  | next :: rest, fs => do
    let (_, fs) ← request next fs
    run rest fs

section Values

theorem bitmapFindFrom_value (bitmap : Bitmap 8) (turns i : Nat) :
    (bitmapFindFrom bitmap turns i).value = Diskfs.bitmapFindFrom bitmap turns i := by
  induction turns generalizing i with
  | zero => rfl
  | succ turns ih =>
    rw [bitmapFindFrom, Diskfs.bitmapFindFrom, value_bind, value_tell, Option.bind_some]
    split
    · rfl
    · split
      · exact ih (i + 1)
      · rfl

theorem allocBlock_value (fs : Diskfs) : (allocBlock fs).value = fs.allocBlock := by
  rw [allocBlock, Diskfs.allocBlock, value_bind, bitmapFindFree, bitmapFindFrom_value]
  refine congrArg (Option.bind _) (funext fun block => ?_)
  split
  · rfl
  · rfl

theorem allocInode_value (fs : Diskfs) : (allocInode fs).value = fs.allocInode := by
  rw [allocInode, Diskfs.allocInode, value_bind, bitmapFindFree, bitmapFindFrom_value]
  refine congrArg (Option.bind _) (funext fun ino => ?_)
  split
  · rfl
  · rfl

theorem freeBlock_value (fs : Diskfs) (block : Word) : (freeBlock fs block).value = fs.freeBlock block := by
  rw [freeBlock]
  split
  · next beyond => rw [Diskfs.freeBlock, if_pos beyond, value_pure]
  · rw [value_bind, value_tell, Option.bind_some, value_ofOption]

theorem freeInode_value (fs : Diskfs) (ino : Word) : (freeInode fs ino).value = fs.freeInode ino := by
  rw [freeInode]
  split
  · next beyond => rw [Diskfs.freeInode, if_pos beyond, value_pure]
  · rw [value_bind, value_tell, Option.bind_some, value_ofOption]

theorem readLoop_value (inode : Inode) (offset size : Word) (turns : Nat) (fs : Diskfs) (bytesRead : Nat) (buffer : Bytes) :
    (readLoop inode offset size turns fs bytesRead buffer).value =
      Diskfs.readLoop inode offset size turns fs bytesRead buffer := by
  induction turns generalizing fs bytesRead buffer with
  | zero => rfl
  | succ turns ih =>
    rw [readLoop, Diskfs.readLoop]
    dsimp only
    split
    · rfl
    · split
      · rfl
      · split
        · rfl
        · rw [value_bind, value_tell, Option.bind_some]
          split
          · rfl
          · exact ih _ _ _

theorem read_value (fs : Diskfs) (ino : Word) (buffer : Bytes) (offset size : Word) :
    (read fs ino buffer offset size).value = fs.read ino buffer offset size := by
  rw [read, Diskfs.read]
  split
  · rfl
  · rw [value_bind, value_ofOption]
    refine congrArg (Option.bind _) (funext fun result => ?_)
    obtain ⟨found, after⟩ := result
    cases found with
    | error _ => rfl
    | ok inode =>
      dsimp only
      split
      · rfl
      · exact readLoop_value _ _ _ _ _ _ _

theorem claimBlock_value (fs : Diskfs) (inode : Inode) (blockIdx : Nat) :
    (claimBlock fs inode blockIdx).value = fs.claimBlock inode blockIdx := by
  rw [claimBlock, Diskfs.claimBlock]
  split
  · rw [value_bind, allocBlock_value]
    refine congrArg (Option.bind _) (funext fun result => ?_)
    dsimp only
    split
    · rfl
    · rfl
  · rfl

theorem writeLoop_value (source : Bytes) (offset size : Word) (turns : Nat) (fs : Diskfs) (inode : Inode)
    (bytesWritten : Nat) : (writeLoop source offset size turns fs inode bytesWritten).value =
      Diskfs.writeLoop source offset size turns fs inode bytesWritten := by
  induction turns generalizing fs inode bytesWritten with
  | zero => rfl
  | succ turns ih =>
    rw [writeLoop, Diskfs.writeLoop]
    split
    · rfl
    · split
      · rfl
      · rw [value_bind, claimBlock_value]
        cases fs.claimBlock inode ((offset + BitVec.ofNat 32 bytesWritten).toNat / 512) with
        | none => rfl
        | some result =>
          obtain ⟨claimed, after⟩ := result
          cases claimed with
          | none => rfl
          | some inode =>
            rw [Option.bind_some, value_bind, storeChunk, value_bind, value_tell, Option.bind_some, value_pure, Option.bind_some]
            dsimp only
            generalize after.storeChunk _ _ _ _ _ = stored
            obtain ⟨code, last⟩ := stored
            rcases code with (_ | other) | other
            · exact ih _ _ _
            · rfl
            · rfl

theorem write_value (fs : Diskfs) (ino : Word) (source : Bytes) (offset size now : Word) :
    (write fs ino source offset size now).value = fs.write ino source offset size now := by
  rw [write, Diskfs.write]
  split
  · rfl
  · rw [value_bind, value_ofOption]
    refine congrArg (Option.bind _) (funext fun result => ?_)
    obtain ⟨found, after⟩ := result
    cases found with
    | error _ => rfl
    | ok inode =>
      dsimp only
      rw [value_bind, writeLoop_value]
      refine congrArg (Option.bind _) (funext fun result => ?_)
      obtain ⟨written, last⟩ := result
      cases written with
      | none => rfl
      | some pair =>
        dsimp only
        rw [value_bind, value_ofOption]
        rfl

theorem lookupLoop_value (junk : Nat → Dirent) (dirIno : Word) (name : CString) (turns : Nat) (fs : Diskfs) (i : Nat) :
    (lookupLoop junk dirIno name turns fs i).value = Diskfs.lookupLoop junk dirIno name turns fs i := by
  induction turns generalizing fs i with
  | zero => rfl
  | succ turns ih =>
    rw [lookupLoop, Diskfs.lookupLoop, value_bind, read_value]
    refine congrArg (Option.bind _) (funext fun result => ?_)
    obtain ⟨ret, entry, after⟩ := result
    dsimp only
    split
    · rfl
    · split
      · exact ih _ _
      · rw [value_bind, value_ofOption]
        refine congrArg (Option.bind _) (funext fun equal => ?_)
        split
        · rfl
        · exact ih _ _

theorem lookup_value (fs : Diskfs) (junk : Nat → Dirent) (dirIno : Word) (name : CString) :
    (lookup fs junk dirIno name).value = fs.lookup junk dirIno name := by
  rw [lookup, Diskfs.lookup]
  split
  · rfl
  · rw [value_bind, value_ofOption]
    refine congrArg (Option.bind _) (funext fun result => ?_)
    obtain ⟨found, after⟩ := result
    cases found with
    | error _ => rfl
    | ok dir =>
      dsimp only
      split
      · rfl
      · exact lookupLoop_value _ _ _ _ _ _

theorem createEntry_value (fs : Diskfs) (parentIno size : Word) (name : CString) (type created written : Word) :
    (createEntry fs parentIno size name type created written).value =
      fs.createEntry parentIno size name type created written := by
  rw [createEntry, Diskfs.createEntry, value_bind, allocInode_value]
  refine congrArg (Option.bind _) (funext fun result => ?_)
  obtain ⟨ino, taken⟩ := result
  dsimp only
  split
  · rfl
  · rw [value_bind, value_ofOption]
    refine congrArg (Option.bind _) (funext fun result => ?_)
    obtain ⟨ret, stored⟩ := result
    dsimp only
    split
    · rw [value_bind, freeInode_value]
      rfl
    · rw [value_bind, write_value]
      refine congrArg (Option.bind _) (funext fun result => ?_)
      obtain ⟨ret, entered⟩ := result
      dsimp only
      split
      · rw [value_bind, freeInode_value]
        rfl
      · rfl

theorem create_value (fs : Diskfs) (junk : Nat → Dirent) (parentIno : Word) (name : CString) (type created written : Word) :
    (create fs junk parentIno name type created written).value = fs.create junk parentIno name type created written := by
  rw [create, Diskfs.create]
  split
  · rfl
  · split
    · rfl
    · rw [value_bind, value_ofOption]
      refine congrArg (Option.bind _) (funext fun result => ?_)
      obtain ⟨found, after⟩ := result
      cases found with
      | error _ => rfl
      | ok parent =>
        dsimp only
        split
        · rfl
        · rw [value_bind, lookup_value]
          refine congrArg (Option.bind _) (funext fun result => ?_)
          split
          · rfl
          · exact createEntry_value _ _ _ _ _ _ _

theorem freeBlocksFrom_value (inode : Inode) (indices : List Nat) (fs : Diskfs) :
    (freeBlocksFrom inode indices fs).value =
      indices.foldlM (fun fs i => if inode.block i ≠ 0 then fs.freeBlock (inode.block i) else some fs) fs := by
  induction indices generalizing fs with
  | nil => rfl
  | cons i rest ih =>
    rw [freeBlocksFrom, List.foldlM_cons]
    split
    · rw [value_bind, freeBlock_value]
      exact congrArg (Option.bind _) (funext fun after => ih after)
    · exact ih fs

theorem clearLoop_value (junk : Nat → Dirent) (parentIno ino now : Word) (turns : Nat) (fs : Diskfs) (i : Nat) :
    (clearLoop junk parentIno ino now turns fs i).value = Diskfs.clearLoop junk parentIno ino now turns fs i := by
  induction turns generalizing fs i with
  | zero => rfl
  | succ turns ih =>
    rw [clearLoop, Diskfs.clearLoop, value_bind, read_value]
    refine congrArg (Option.bind _) (funext fun result => ?_)
    obtain ⟨ret, entry, after⟩ := result
    dsimp only
    split
    · rw [value_bind, write_value]
      rfl
    · exact ih _ _

theorem deleteInode_value (fs : Diskfs) (scrap : Nat → Dirent) (parentIno ino : Word) (inode : Inode) (now : Word) :
    (deleteInode fs scrap parentIno ino inode now).value = fs.deleteInode scrap parentIno ino inode now := by
  rw [deleteInode, Diskfs.deleteInode, value_bind, freeBlocksFrom_value]
  refine congrArg (Option.bind _) (funext fun freed => ?_)
  rw [value_bind, freeInode_value]
  refine congrArg (Option.bind _) (funext fun cleared => ?_)
  rw [value_bind, value_ofOption]
  refine congrArg (Option.bind _) (funext fun result => ?_)
  obtain ⟨found, after⟩ := result
  cases found with
  | error _ => rfl
  | ok parent =>
    dsimp only
    rw [value_bind, clearLoop_value]
    rfl

theorem delete_value (fs : Diskfs) (junk scrap : Nat → Dirent) (parentIno : Word) (name : CString) (now : Word) :
    (delete fs junk scrap parentIno name now).value = fs.delete junk scrap parentIno name now := by
  rw [delete, Diskfs.delete]
  split
  · rfl
  · rw [value_bind, lookup_value]
    refine congrArg (Option.bind _) (funext fun result => ?_)
    obtain ⟨found, after⟩ := result
    dsimp only
    split
    · rfl
    · rw [value_bind, value_ofOption]
      refine congrArg (Option.bind _) (funext fun result => ?_)
      obtain ⟨held, last⟩ := result
      cases held with
      | error _ => rfl
      | ok inode =>
        dsimp only
        split
        · rfl
        · exact deleteInode_value _ _ _ _ _ _

theorem request_value (asked : Request) (fs : Diskfs) : (request asked fs).value = asked.run fs := by
  cases asked with
  | change call =>
    cases call with
    | write ino source offset size now =>
      rw [request, value_bind, write_value]
      exact Option.map_eq_bind.symm
    | create junk parentIno name type created written =>
      rw [request, value_bind, create_value]
      exact Option.map_eq_bind.symm
    | delete junk scrap parentIno name now =>
      rw [request, value_bind, delete_value]
      exact Option.map_eq_bind.symm
  | read ino buffer offset size =>
    rw [request, value_bind, read_value]
    exact Option.map_eq_bind.symm
  | stat ino => rfl
  | lookup junk dirIno name =>
    rw [request, value_bind, lookup_value]
    exact Option.map_eq_bind.symm

end Values

end Watched

end MexOS.Fs
