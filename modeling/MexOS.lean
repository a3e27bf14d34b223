import MexOS.Sched.Switch
import MexOS.Sched.Invariant
import MexOS.Mm.UserPtr
import MexOS.Mm.PmmBoot
import MexOS.Mm.HeapInvariant
import MexOS.Ipc.Destroy
import MexOS.Fs.ReadAfterWrite
import MexOS.Fs.WorkingDirectory
import MexOS.Fs.Namespace
import MexOS.Fs.Migration
import MexOS.Mm.Lifecycle
import MexOS.Core.Exec
import MexOS.Mm.Window
import MexOS.Mm.WindowCalls
import MexOS.Mm.WindowSpaces
import MexOS.Mm.WindowBoot
import MexOS.Mm.WindowRun
import MexOS.Sched.TaskList
import MexOS.Sched.Priority
import MexOS.Sched.CurrentTask
import MexOS.Sched.Fate
import MexOS.Sched.Waiting
import MexOS.Sched.Reaping
import MexOS.Sched.Census
import MexOS.Ipc.Revival
import MexOS.Sched.Refinement
import MexOS.Mm.HeapUse
import MexOS.Sched.TaskMemory
import MexOS.Sched.TaskOwnership
import MexOS.Core.Syscall
import MexOS.Core.UserAccess
import MexOS.Fs.FailedMount
import MexOS.Fs.Durable
import MexOS.Fs.TwinCalls
import MexOS.Fs.TwinEntries
import MexOS.Fs.Remount
import MexOS.Lib.Strings
import MexOS.Lib.Log
import MexOS.Ui.Vterm
import MexOS.Ui.VtermState
import MexOS.Ui.Scrollback
import MexOS.Drivers.Keyboard
import MexOS.Mm.HeapAccounting
import MexOS.Fs.DiskAccess
import MexOS.Fs.DiskContained
import MexOS.Machine.SortedMap
import MexOS.Ui.Basic
import MexOS.Ui.BasicStore
import MexOS.Ui.Editor
import MexOS.Ui.EditorSession
import MexOS.Ui.EditorProgram
import MexOS.Fs.PathWalk
import MexOS.Fs.EndOfFile
import MexOS.Core.Elf
import MexOS.Core.ElfReads
import MexOS.Core.Elf
import MexOS.Core.ElfReads
import MexOS.Fs.Undo
import MexOS.Mm.CloneRun
import MexOS.Mm.CloneCopy
import MexOS.Mm.CloneFailure
import MexOS.Mm.Guarded
import MexOS.Core.ElfWrites
import MexOS.Core.ElfImage
import MexOS.Fs.InodeBitmap
import MexOS.Fs.Listing
import MexOS.Fs.CreatedEntry
import MexOS.Fs.ListDir
import MexOS.Ipc.Counting
import MexOS.Mm.PmmRuns
import MexOS.Mm.HeapAligned
import MexOS.Mm.HeapBestFit
import MexOS.Mm.HeapRoom
import MexOS.Mm.HeapReport
import MexOS.Fs.FailedWrite
import MexOS.Fs.InPlace
import MexOS.Fs.EmptyDirectory
import MexOS.Mm.NewSpace
import MexOS.Core.FailedExec
import MexOS.Ui.BasicRun
import MexOS.Ui.BasicNumber
import MexOS.Fs.StoredBytes
import MexOS.Ui.EditorSave
import MexOS.Ui.EditorLines
import MexOS.Ui.DiskInstaller
import MexOS.Ui.Shell
import MexOS.Ui.ShellHistory
import MexOS.Ui.ShellBrowse
import MexOS.Ui.ShellKill
import MexOS.Sched.Ticks
import MexOS.Sys.Sysmon
import MexOS.Machine.Pool
import MexOS.Fs.AllocatorRun
import MexOS.Lib.Itoa
import MexOS.Drivers.Ahci
import MexOS.Lib.LogFormat
import MexOS.Drivers.AtaPio
import MexOS.Drivers.AtaController
import MexOS.Drivers.AtaDetection
import MexOS.Drivers.Pci
import MexOS.Drivers.PciAccess
import MexOS.Drivers.PciEnumeration
import MexOS.Drivers.Rtc
import MexOS.Drivers.RtcReading
import MexOS.Drivers.RtcWriting
import MexOS.Drivers.KeyboardReader
import MexOS.Mm.Allotted
