import Exyde.Cpu.Gs
import Exyde.Heap.Delivery
import Exyde.Ipc.ChannelMem
import Exyde.Ipc.ChannelWait
import Exyde.Ipc.HandleRuns
import Exyde.Kernel.Exceptions
import Exyde.Kernel.Ownership
import Exyde.Kernel.ProcList
import Exyde.Kernel.Receive
import Exyde.Libc.Bsearch
import Exyde.Libc.EnvSpec
import Exyde.Libc.InitrdEnv
import Exyde.Libc.QsortRuns
import Exyde.Libc.Strto
import Exyde.Mem.Bootinfo
import Exyde.Mem.MapCalls
import Exyde.Mem.ElfLoad
import Exyde.Mem.ElfTrace
import Exyde.Mem.PmmRuns
import Exyde.Mem.SpaceRuns
import Exyde.Posix.FdRuns
import Exyde.Sync.Refine
import Exyde.Sync.Semaphore
import Exyde.Vfs.Identity
import Exyde.Vfs.Namespace
import Exyde.Vfs.Opening
