import Novium.Lib.Runs
import Novium.Lib.Linked
import Novium.Lib.Word
import Novium.Lib.Ring
import Novium.Lib.DList
import Novium.Sched.State
import Novium.Sched.Ops
import Novium.Sched.Queue
import Novium.Sched.Partition
import Novium.Sched.Switching
import Novium.Sched.Calls
import Novium.Sched.Frame
import Novium.Sched.Lifecycle
import Novium.Sched.Runs
import Novium.Sched.Census
import Novium.Sched.Ids
import Novium.Sched.Exit
import Novium.Sched.Unblock
import Novium.Ipc.Wait
import Novium.Ipc.Machine
import Novium.Ipc.Parking
import Novium.Ipc.Wakeups
import Novium.Ipc.Sem
import Novium.Ipc.SemCount
import Novium.Ipc.SemWake
import Novium.Ipc.SemHandOff
import Novium.Ipc.Mutex
import Novium.Ipc.MutexSafety
import Novium.Ipc.HandOff
import Novium.Ipc.Port
import Novium.Ipc.PortSides
import Novium.Ipc.PortFifo
import Novium.Ipc.PortWake
import Novium.Ipc.PortLife
import Novium.Ipc.PortRelease
import Novium.Ipc.Stale
import Novium.Mm.PageAlloc
import Novium.Mm.PageRuns
import Novium.Mm.PageOwners
import Novium.Mm.Heap
import Novium.Mm.FreeList
import Novium.Mm.Layout
import Novium.Mm.Focus
import Novium.Mm.Steps
import Novium.Mm.Kmalloc
import Novium.Mm.Kfree
import Novium.Mm.HeapRuns
import Novium.Mm.HeapSafety
import Novium.Lib.Rotation
import Novium.Sched.RoundRobin
import Novium.Sched.Priority
import Novium.Lib.Bits
import Novium.Mm.Paging
import Novium.Mm.PagingWalk
import Novium.Console.Sheet
import Novium.Console.Window
import Novium.Console.Runs
import Novium.Lib.X86
import Novium.Arch.ContextSwitch
import Novium.Mm.WellFormed
import Novium.Mm.KmallocWrites
import Novium.Mm.KmallocExact
import Novium.Mm.KmallocSpec
import Novium.Lib.Gaps
import Novium.Mm.KfreeExact
import Novium.Mm.KfreeOrder
import Novium.Mm.KmallocUndo
import Novium.Mm.PageFit
import Novium.Mm.PageMap
import Novium.Sched.Wake
import Novium.Sched.Doze
import Novium.Sched.Sleep
import Novium.Arch.Pic
import Novium.Time.Pit
import Novium.Time.Sleep
import Novium.Input.Getchar
import Novium.Console.Printf
import Novium.Console.MemMove
import Novium.Lib.Cpu
import Novium.Kernel.SchedCode
import Novium.Kernel.IpcCode
import Novium.Kernel.Flag
import Novium.Kernel.Calls
import Novium.Kernel.SchedExec
import Novium.Kernel.Sections
import Novium.Kernel.Atomic
import Novium.Lib.Trap
import Novium.Arch.Isr
import Novium.Arch.Preempted
import Novium.Lib.Pic8259
import Novium.Arch.Irq
import Novium.Arch.Dispatch
import Novium.Sched.Micro
import Novium.Sched.Accounts
import Novium.Lib.Lineup
import Novium.Sched.Waiting
import Novium.Sched.Passing
import Novium.Time.Fairness
import Novium.Ipc.Quiescent
import Novium.Ipc.Channel
import Novium.Selftest.Rendezvous
import Novium.Ipc.Stranded
import Novium.Selftest.LockTask
import Novium.Lib.Objects
import Novium.Mm.Objects
import Novium.Sched.Pinned
import Novium.Shell.Line
import Novium.Shell.Task
import Novium.Shell.History
