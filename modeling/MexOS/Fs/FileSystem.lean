import MexOS.Fs.RamFs

/-! All of `fs/fs.c`: the nodes in memory, and the branches that go to the
disk file system once it is enabled. -/

namespace MexOS.Fs

open MexOS.Machine

namespace Diskfs

def unmount (fs : Diskfs) : Int × Diskfs :=
  if fs.mountedDrive = 0xFF then (0, fs) else (0, { fs.sync.2 with mountedDrive := 0xFF })

/-- Format the drive unless it can be mounted as it is. -/
def init (fs : Diskfs) (drive : Byte) (now : Word) : Option (Int × Diskfs) :=
  match fs.mount drive with
  | (0, fs) => some (0, fs)
  | (_, fs) => do
    let (ret, fs) ← fs.format drive now
    if ret ≠ 0 then return (-1, fs)
    return fs.mount drive

end Diskfs

/-- What a call finds in uninitialised memory and on the timer: the directory
entries in the lookups of a path's components and in that of `diskfs_create`,
and the ticks when an inode is filled in, when its entry is written and when
data are. -/
structure Ambient where
  walked : Nat → Nat → Dirent
  entry : Nat → Dirent
  created : Word
  written : Word
  stored : Word

/-- Nothing left behind and a timer that stands still. -/
def Ambient.zero : Ambient := ⟨fun _ _ => Bytes.zero, fun _ => Bytes.zero, 0, 0, 0⟩

/-- The statics of `fs.c`, and the disk file system. -/
structure FileSystem where
  ram : RamFs
  diskEnabled : Bool
  disk : Diskfs

namespace FileSystem

/-- `fs_init`, whatever the drives hold. -/
def init (disk : Diskfs) : FileSystem := { ram := RamFs.init, diskEnabled := false, disk }

/-- The loop of `resolve_to_diskfs_inode` over the components; `turn` numbers
them. -/
def walk (walked : Nat → Nat → Dirent) : Nat → Diskfs → Int → List (List Byte) → Option (Int × Diskfs)
  | _, disk, ino, [] => some (ino, disk)
  | turn, disk, ino, token :: rest =>
    let component := token.take (maxFilename - 1)
    if component = [] then walk walked (turn + 1) disk ino rest
    else do
      let (found, disk) ← disk.lookup (walked turn) (BitVec.ofInt 32 ino) (CString.ofBytes component)
      if found < 0 then return (-1, disk)
      walk walked (turn + 1) disk found rest

def resolveToDiskfsInode (fs : FileSystem) (walked : Nat → Nat → Dirent) (path : CString) : Option (Int × Diskfs) :=
  if ¬ fs.diskEnabled then some (-1, fs.disk)
  else if path.bytes = [slash] then some (0, fs.disk)
  else
    let buf := path.bytes.take (fsMaxPath - 1)
    if buf.head? ≠ some slash then some (-1, fs.disk) else walk walked 0 fs.disk 0 (buf.tail.splitOn slash)

/-- The directory and the base name of a path in `fs_create_file`; the array
for the directory has `FS_MAX_PATH` bytes. -/
def splitPath (path : CString) : Option (CString × CString) :=
  let name (bytes : List Byte) := CString.ofBytes (bytes.take (maxFilename - 1))
  let root := CString.ofBytes [slash]
  match RamFs.lastSlash path.bytes with
  | none => some (root, name path.bytes)
  | some ([], namePart) => some (root, name namePart)
  | some (dirPart, namePart) => if fsMaxPath ≤ dirPart.length then none else some (CString.ofBytes dirPart, name namePart)

def createFile (fs : FileSystem) (path : CString) (ambient : Ambient) : Option (Int × FileSystem) :=
  if fs.diskEnabled then do
    let (parentPath, basename) ← splitPath path
    let (parentIno, disk) ← fs.resolveToDiskfsInode ambient.walked parentPath
    if parentIno < 0 then return (FsError.notFound.code, { fs with disk })
    let (ino, disk) ← disk.create ambient.entry (BitVec.ofInt 32 parentIno) basename typeFile ambient.created ambient.written
    return (if 0 ≤ ino then 0 else FsError.full.code, { fs with disk })
  else some ((fs.ram.createFile path).1, { fs with ram := (fs.ram.createFile path).2 })

def createDir (fs : FileSystem) (path : CString) : Int × FileSystem :=
  ((fs.ram.createDir path).1, { fs with ram := (fs.ram.createDir path).2 })

def remove (fs : FileSystem) (path : CString) : Int × FileSystem :=
  ((fs.ram.remove path).1, { fs with ram := (fs.ram.remove path).2 })

def read (fs : FileSystem) (path : CString) (ambient : Ambient) (buffer : Bytes) (size : Word) :
    Option (Int × Bytes × FileSystem) :=
  if fs.diskEnabled then do
    let (ino, disk) ← fs.resolveToDiskfsInode ambient.walked path
    if ino < 0 then return (FsError.notFound.code, buffer, { fs with disk })
    let (ret, buffer, disk) ← disk.read (BitVec.ofInt 32 ino) buffer 0 size
    return (ret, buffer, { fs with disk })
  else some ((fs.ram.read path buffer size.toNat).1, (fs.ram.read path buffer size.toNat).2, fs)

def write (fs : FileSystem) (path : CString) (ambient : Ambient) (data : Bytes) (size : Word) :
    Option (Int × FileSystem) :=
  if fs.diskEnabled then do
    let (ino, disk) ← fs.resolveToDiskfsInode ambient.walked path
    if ino < 0 then return (FsError.notFound.code, { fs with disk })
    let (ret, disk) ← disk.write (BitVec.ofInt 32 ino) data 0 size ambient.stored
    return (ret, { fs with disk := disk.sync.2 })
  else some ((fs.ram.write path data size.toNat).1, { fs with ram := (fs.ram.write path data size.toNat).2 })

def append (fs : FileSystem) (path : CString) (data : Bytes) (size : Word) : Int × FileSystem :=
  ((fs.ram.append path data size.toNat).1, { fs with ram := (fs.ram.append path data size.toNat).2 })

def changeDir (fs : FileSystem) (path : CString) : Option (Int × FileSystem) :=
  (fs.ram.changeDir path).map fun result => (result.1, { fs with ram := result.2 })

def fsExists (fs : FileSystem) (path : CString) : Bool := fs.ram.fsExists path

def isDir (fs : FileSystem) (path : CString) : Bool := fs.ram.isDir path

def getSize (fs : FileSystem) (path : CString) : Nat := fs.ram.getSize path

def clearCache (fs : FileSystem) : FileSystem := { fs with ram := fs.ram.clearCache }

def diskType : NodeType → Word
  | .file => typeFile
  | .dir => typeDir

/-- One turn of the loop of `fs_enable_disk`. -/
def migrate (ram : RamFs) (ambient : Index → Ambient) (disk : Diskfs) (i : Index) : Option Diskfs :=
  let node := ram.nodes i
  if node.used then do
    let (ino, disk) ← disk.create (ambient i).entry 0 (CString.ofBytes node.name) (diskType node.type)
      (ambient i).created (ambient i).written
    if 0 ≤ ino ∧ node.type = .file then
      let (_, disk) ← disk.write (BitVec.ofInt 32 ino) node.data 0 (BitVec.ofNat 32 node.size) (ambient i).stored
      return disk
    return disk
  else some disk

/-- `now` is the timer in `diskfs_format`, if that is called. -/
def enableDisk (fs : FileSystem) (drive : Byte) (now : Word) (ambient : Index → Ambient) : Option (Int × FileSystem) := do
  let (ret, disk) ← fs.disk.init drive now
  if ret = 0 then
    let disk ← RamFs.indices.tail.foldlM (migrate fs.ram ambient) disk
    return (0, { fs with diskEnabled := true, disk := disk.sync.2 })
  return (ret, { fs with disk })

def sync (fs : FileSystem) : Int × FileSystem :=
  if fs.diskEnabled then (fs.disk.sync.1, { fs with disk := fs.disk.sync.2 }) else (0, fs)

/-- The calls that change something: those of `fs.c`, and those of `diskfs.c`
that the shell and the disk installer make. -/
inductive Call where
  | init
  | createFile (path : CString) (ambient : Ambient)
  | createDir (path : CString)
  | remove (path : CString)
  | read (path : CString) (ambient : Ambient) (buffer : Bytes) (size : Word)
  | write (path : CString) (ambient : Ambient) (data : Bytes) (size : Word)
  | append (path : CString) (data : Bytes) (size : Word)
  | changeDir (path : CString)
  | clearCache
  | enableDisk (drive : Byte) (now : Word) (ambient : Index → Ambient)
  | sync
  | format (drive : Byte) (now : Word)
  | mount (drive : Byte)
  | unmount

def Call.run (fs : FileSystem) : Call → Option FileSystem
  | init => some (FileSystem.init fs.disk)
  | createFile path ambient => (fs.createFile path ambient).map Prod.snd
  | createDir path => some (fs.createDir path).2
  | remove path => some (fs.remove path).2
  | read path ambient buffer size => (fs.read path ambient buffer size).map fun result => result.2.2
  | write path ambient data size => (fs.write path ambient data size).map Prod.snd
  | append path data size => some (fs.append path data size).2
  | changeDir path => (fs.changeDir path).map Prod.snd
  | clearCache => some fs.clearCache
  | enableDisk drive now ambient => (fs.enableDisk drive now ambient).map Prod.snd
  | sync => some fs.sync.2
  | format drive now => (fs.disk.format drive now).map fun result => { fs with disk := result.2 }
  | mount drive => some { fs with disk := (fs.disk.mount drive).2 }
  | unmount => some { fs with disk := fs.disk.unmount.2 }

end FileSystem

end MexOS.Fs
