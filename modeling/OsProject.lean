import OsProject.Runs
import OsProject.AddrSpace
import OsProject.ProcTable
import OsProject.ProcStep
import OsProject.ProcCases
import OsProject.SchedInvariant
import OsProject.Threads
import OsProject.Creation
import OsProject.SlotData
import OsProject.Zombie
import OsProject.Sigstop
import OsProject.Waitpid
import OsProject.SlotHygiene
import OsProject.WaitLock
import OsProject.ExitStatus
import OsProject.FamilyTree
import OsProject.WaitInvariant
import OsProject.Radix
import OsProject.PhysMem
import OsProject.Vm
import OsProject.PageTable
import OsProject.Space
import OsProject.SpaceOps
import OsProject.UserMem
import OsProject.Paged
import OsProject.UserCopy
import OsProject.Inodes
import OsProject.Loader
import OsProject.System
import OsProject.ProcMem
import OsProject.ProcCalls
import OsProject.CleanFailure
import OsProject.LoaderSafety
import OsProject.SpawnForkExec
import OsProject.SegmentContents
import OsProject.Fork
import OsProject.Redo
import OsProject.Journal
import OsProject.JournalControl
import OsProject.JournalAdmission
import OsProject.CopyFile
import OsProject.CrashAtomic
import OsProject.Ownership
import OsProject.Blocks
import OsProject.BlockOwners
import OsProject.MoveFile
import OsProject.PosixTree
import OsProject.DeleteFile
import OsProject.Sysfile
import OsProject.Ring
import OsProject.Pipe
import OsProject.Console
import OsProject.Dirents
import OsProject.BlockContents
import OsProject.Mkfs
import OsProject.MkfsImage
import OsProject.MkfsBuild
import OsProject.MkfsFormat
import OsProject.Virtio
import OsProject.VirtioProtocol
import OsProject.Pool
import OsProject.Itable
import OsProject.ItableRace
import OsProject.CircularList
import OsProject.Bcache
import OsProject.BcacheInvariant
import OsProject.BcacheCoherence
import OsProject.Machine
import OsProject.Sbrk
import OsProject.Syscall
import OsProject.Forex
import OsProject.SleepLoops
import OsProject.PipeRead
import OsProject.PipeUsers
import OsProject.ArgStack
import OsProject.SysExec
import OsProject.Isolation
import OsProject.HeldRefs
import OsProject.Fibers
import OsProject.FileTable
import OsProject.FileCalls
import OsProject.CallsKeep
import OsProject.MachineInvariant
import OsProject.Boot
import OsProject.MapPages
import OsProject.WordCount
import OsProject.Shell
import OsProject.FDisplay
import OsProject.Memmove
import OsProject.Grep
