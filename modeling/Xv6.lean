import Xv6.Bio.Valid
import Xv6.Boot
import Xv6.Console.Discipline
import Xv6.Exec
import Xv6.Fs.Alloc
import Xv6.Fs.CrashAtomic
import Xv6.Fs.Path
import Xv6.Grep.Lines
import Xv6.Ide.Queue
import Xv6.Memmove
import Xv6.Mkfs.Kernel
import Xv6.Mp
import Xv6.Pipe.Wakeup
import Xv6.Proc.Kill
import Xv6.Proc.Wakeup
import Xv6.Sh.Print
import Xv6.Sh.Redirections
import Xv6.Sh.Terminate
import Xv6.Sleeplock
import Xv6.Spinlock
import Xv6.Syscall.Confined
import Xv6.Syscall.Counters
import Xv6.Umalloc.Overflow
import Xv6.Vm.Kalloc
import Xv6.Vm.Leak
import Xv6.Vm.Translation
