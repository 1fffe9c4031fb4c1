import AlaphiOS.Lib.Bytes
import AlaphiOS.Lib.Checked
import AlaphiOS.Lib.Chain
import AlaphiOS.Lib.Spans
import AlaphiOS.Lib.Tiling
import AlaphiOS.Lib.Dyadic
import AlaphiOS.Lib.Run
import AlaphiOS.Lib.Ring
import AlaphiOS.Lib.Trace
import AlaphiOS.Lib.Monitor
import AlaphiOS.Lib.WaitQueues
import AlaphiOS.Lib.LockCode
import AlaphiOS.Lib.LockOrder
import AlaphiOS.Memory.Buddy
import AlaphiOS.Memory.BuddyTiling
import AlaphiOS.Memory.BuddyRun
import AlaphiOS.Memory.BuddyCoalesced
import AlaphiOS.Memory.FreeList
import AlaphiOS.Memory.FreeListRuns
import AlaphiOS.Io.Disk
import AlaphiOS.Io.BlockDevice
import AlaphiOS.Lib.Slices
import AlaphiOS.Lib.ShiftRegister
import AlaphiOS.Io.Checksum
import AlaphiOS.Io.DiskIo
import AlaphiOS.Io.DiskBounds
import AlaphiOS.Lib.StableSort
import AlaphiOS.Io.Scheduler
import AlaphiOS.Io.Scancodes
import AlaphiOS.Io.Console
import AlaphiOS.Memory.Swap
import AlaphiOS.Memory.SwapStore
import AlaphiOS.Memory.Paging
import AlaphiOS.Memory.Vmm
import AlaphiOS.Memory.AddressSpaces
import AlaphiOS.Memory.FrameSafety
import AlaphiOS.Memory.FrameRuns
import AlaphiOS.Memory.Faults
import AlaphiOS.Memory.FrameLeaks
import AlaphiOS.Memory.CowIsolation
import AlaphiOS.Memory.SwapSafety
import AlaphiOS.Memory.Fork
import AlaphiOS.Memory.Loader
import AlaphiOS.Memory.Threads
import AlaphiOS.Memory.Areas
import AlaphiOS.Memory.Mprotect
import AlaphiOS.Memory.Protection
import AlaphiOS.Memory.HeapRelease
import AlaphiOS.Memory.UserHalf
import AlaphiOS.Memory.Rounding
import AlaphiOS.Memory.Reaper
import AlaphiOS.Memory.ReapTo
import AlaphiOS.Lib.Buckets
import AlaphiOS.Memory.VictimOrder
import AlaphiOS.Memory.BootFrames
import AlaphiOS.Sched.Mlfq
import AlaphiOS.Sched.Queues
import AlaphiOS.Sched.Conservation
import AlaphiOS.Sched.Overtaking
import AlaphiOS.Sched.Kernel
import AlaphiOS.Sched.Roster
import AlaphiOS.Sched.RosterInv
import AlaphiOS.Sched.Blocking
import AlaphiOS.Sched.Exit
import AlaphiOS.Sched.Places
import AlaphiOS.Sched.Waits
import AlaphiOS.Sched.ExitWakes
import AlaphiOS.Sched.Mutex
import AlaphiOS.Sched.StaleWaiters
import AlaphiOS.Sched.Yield
import AlaphiOS.Sched.Priorities
import AlaphiOS.Lib.Maps
import AlaphiOS.Fs.Tables
import AlaphiOS.Fs.Vfs
import AlaphiOS.Fs.Ledger
import AlaphiOS.Fs.Effects
import AlaphiOS.Fs.Descriptors
import AlaphiOS.Fs.Tree
import AlaphiOS.Lib.ByteFile
import AlaphiOS.Fs.Contents
import AlaphiOS.Fs.OpenFiles
import AlaphiOS.Fs.Aliases
import AlaphiOS.Fs.Shared
import AlaphiOS.Fs.Confinement
import AlaphiOS.Fs.SystemReach
import AlaphiOS.Fs.Permissions
import AlaphiOS.Fs.Modes
import AlaphiOS.Fs.Refusals
import AlaphiOS.Fs.Overlay
import AlaphiOS.Lib.Records
import AlaphiOS.Fs.SystemRecords
import AlaphiOS.Fs.SystemDomain
import AlaphiOS.Fs.RepairCrash
import AlaphiOS.Fs.PermsLog
import AlaphiOS.Process.Identity
import AlaphiOS.Security.AccessControl
import AlaphiOS.Security.AccessMatrix
import AlaphiOS.Ipc.Channel
import AlaphiOS.Ipc.Pipe
import AlaphiOS.Ipc.PipeReaders
import AlaphiOS.Ipc.MsgQueue
import AlaphiOS.Ipc.MsgDelivery
import AlaphiOS.Syscall.Locks
import AlaphiOS.Syscall.Channels
import AlaphiOS.Syscall.Dispatch
import AlaphiOS.Syscall.FileCalls
import AlaphiOS.Syscall.Preemption
import AlaphiOS.Syscall.LockOrder
import AlaphiOS.Process.Signal
import AlaphiOS.Sync.Spinlock
import AlaphiOS.Sync.Interrupts
import AlaphiOS.Lib.Asm
import AlaphiOS.Arch.Context
import AlaphiOS.Arch.SyscallEntry
import AlaphiOS.Arch.Traps
import AlaphiOS.Arch.Interleavings
import AlaphiOS.Process.SignalRuns
