import Nxos.Mm.Buddy.References
import Nxos.Mm.Vmspace.Heap
import Nxos.Mm.PageCache.Spans
import Nxos.Mm.HeapCache.Session
import Nxos.Ipc.Hub.FreeChannels
import Nxos.Ipc.Hub.Registry
import Nxos.Arch.Riscv64.Session
import Nxos.Arch.X86.Permissions
import Nxos.Process.Teardown
import Nxos.Process.FailedMaps
import Nxos.Process.LastThread
import Nxos.Process.LoadElf.Bounds
import Nxos.Time.Timer.History
import Nxos.Sched.Suspend
import Nxos.Sched.Semaphore.Counting
import Nxos.Sched.Semaphore.Links
import Nxos.Sched.Exit.Termination
import Nxos.Sched.Sleep.Runs
import Nxos.Sched.Smp.Runs
import Nxos.Sched.Smp.Sequence
import Nxos.Slots.Waiters
import Nxos.Fs.Vfs.Answers
import Nxos.Fs.Vfs.Writing
import Nxos.Fs.Descriptors.Sharing
import Nxos.Fs.Cpio.Listing
import Nxos.Io.IoQueue
import Nxos.Io.DelayIrq.Reentry
import Nxos.Io.Device.Counts
import Nxos.Io.Device.Periods
import Nxos.Sched.ThreadId
import Nxos.Mm.Buddy.DoubleFree
import Nxos.Io.Irq
import Nxos.Io.Device.Registry
import Nxos.Mm.Vmspace.Canonical
import Nxos.Support.Calendar
import Nxos.Time.SystemTime.YearDay
import Nxos.Mm.Vmspace.Copy
import Nxos.Base.Ram
import Nxos.Mm.Vmspace.FirstFit
import Nxos.Ipc.Hub.Mdl
import Nxos.Ipc.Hub.Translate
import Nxos.Mm.HeapCache.History
import Nxos.Mm.HeapCache.Middle
import Nxos.Mm.HeapCache.Oversized
import Nxos.Time.Timer.Refused
import Nxos.Sched.Semaphore.SignalAll
import Nxos.Support.DyadicCount
import Nxos.Mm.Buddy.Figures
import Nxos.Mm.Vmspace.Holes
import Nxos.Ipc.Hub.Holes
import Nxos.Arch.Riscv64.LeafLog
import Nxos.Arch.Riscv64.FailedMap
import Nxos.Mm.Vmspace.Escape
import Nxos.Mm.Vmspace.Coverage
import Nxos.Arch.Riscv64.Laws
import Nxos.Mm.Vmspace.Filled
import Nxos.Ipc.Hub.Undo
import Nxos.Mm.Vmspace.Border
import Nxos.Support.Names
import Nxos.Fs.Buffer
import Nxos.Fs.AbsPath
import Nxos.Fs.Vfs.FindRoot
import Nxos.Fs.Vfs.Leaks
import Nxos.Fs.Descriptors.Seek
import Nxos.Fs.Cpio.FirstEntry
import Nxos.Support.Logged
import Nxos.Fs.Cpio.Buffers
import Nxos.Fs.Cpio.Romdisk
import Nxos.Process.Snapshot
import Nxos.Fs.Vfs.Undo
import Nxos.Fs.Vfs.MountCall
import Nxos.Fs.Vfs.Rename
import Nxos.Process.Env.RoundTrip
import Nxos.Utils.Sprintf.ReadBack
import Nxos.Sched.Lock.Sections
import Nxos.Fs.Vfs.Removal
import Nxos.Mm.KernelHeap.Session
