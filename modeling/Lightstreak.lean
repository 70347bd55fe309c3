import Lightstreak.Lib.Word
import Lightstreak.Lib.Memory
import Lightstreak.Lib.Bytes
import Lightstreak.Lib.Numeral
import Lightstreak.Lib.Run
import Lightstreak.Lib.Wp
import Lightstreak.Lib.FirstFit
import Lightstreak.Lib.Bitmap
import Lightstreak.Lib.Paging
import Lightstreak.Lib.Ring
import Lightstreak.Lib.RingBuffer
import Lightstreak.Lib.LineEdit
import Lightstreak.Lib.X86
import Lightstreak.Lib.Interrupts
import Lightstreak.Lib.Pic
import Lightstreak.Arch.Interrupts
import Lightstreak.Arch.Gdt
import Lightstreak.Arch.Idt
import Lightstreak.Arch.Irq
import Lightstreak.Arch.IrqService
import Lightstreak.Mm.Heap
import Lightstreak.Mm.HeapChain
import Lightstreak.Mm.HeapRuns
import Lightstreak.Mm.HeapPrivate
import Lightstreak.Mm.HeapStale
import Lightstreak.Mm.HeapClients
import Lightstreak.Mm.HeapNesting
import Lightstreak.Mm.Pmm
import Lightstreak.Mm.PmmOwnership
import Lightstreak.Mm.PmmAccounting
import Lightstreak.Mm.PmmSearch
import Lightstreak.Mm.PmmRegions
import Lightstreak.Mm.Vmm
import Lightstreak.Mm.VmmTables
import Lightstreak.Mm.VmmIdentity
import Lightstreak.Mm.VmmRights
import Lightstreak.Fs.Vfs
import Lightstreak.Fs.Ramfs
import Lightstreak.Fs.RamfsSpec
import Lightstreak.Fs.RamfsWrites
import Lightstreak.Fs.RamfsNames
import Lightstreak.Fs.RamfsOpen
import Lightstreak.Fs.InitramfsReads
import Lightstreak.Fs.InitramfsSafety
import Lightstreak.Fs.Mkramfs
import Lightstreak.Fs.Initramfs
import Lightstreak.Syscall.FileCalls
import Lightstreak.Syscall.FileRefinement
import Lightstreak.Syscall.FileBounds
import Lightstreak.Fs.Readdir
import Lightstreak.Syscall.Isolation
import Lightstreak.Proc.Scheduler
import Lightstreak.Proc.RunQueue
import Lightstreak.Proc.SchedulerRuns
import Lightstreak.Proc.RoundRobin
import Lightstreak.Proc.ContextSwitch
import Lightstreak.Proc.Creation
import Lightstreak.Proc.SwitchRuns
import Lightstreak.Drivers.Keyboard
import Lightstreak.Drivers.KeyboardShift
import Lightstreak.Drivers.Timer
import Lightstreak.Drivers.Vga
import Lightstreak.Syscall.Ps
import Lightstreak.Syscall.Dispatch
import Lightstreak.Syscall.KernelRuns
import Lightstreak.Syscall.Exits
import Lightstreak.Boot.Files
import Lightstreak.Proc.Exec
import Lightstreak.Proc.Lifecycle
import Lightstreak.Proc.ExecAtomic
import Lightstreak.Boot.Layout
import Lightstreak.Boot.Frames
import Lightstreak.Boot.PagingReach
import Lightstreak.Kernel.Kprintf
import Lightstreak.User.StringLib
import Lightstreak.User.Syscalls
import Lightstreak.User.Shell
import Lightstreak.User.ShellScreen
import Lightstreak.User.Commands
import Lightstreak.User.CommandOutput
import Lightstreak.User.CommandSpecs
import Lightstreak.User.ShellRuns
import Lightstreak.User.Typing
import Lightstreak.User.ClearScreen
