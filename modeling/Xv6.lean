import Xv6.Sigreturn.Theorems
import Xv6.Psig.Frame
import Xv6.Trap.Locks
import Xv6.Trap.Default
import Xv6.Trap.JobControl
import Xv6.Ptable.Fresh
import Xv6.Ptable.Init
import Xv6.Ptable.Broadcast
import Xv6.Ptable.Inherit
import Xv6.Ptable.Masks
import Xv6.Ptable.Channels
import Xv6.Ptable.Trampoline
import Xv6.Ptable.Delivery
import Xv6.Log.Space
import Xv6.Ide.Wakeups
import Xv6.Log.Recovery
import Xv6.Sleep.Wakeup
import Xv6.Pipe.Theorems
import Xv6.Icache.Races
import Xv6.Sched.Reap
import Xv6.Bio.Theorems
import Xv6.Exits
import Xv6.Ptable.Unhandled
import Xv6.Ptable.Handlers
import Xv6.Fork
import Xv6.Syscall
import Xv6.Vm.Dealloc
import Xv6.Exec.Stack
import Xv6.Fs.Contents
import Xv6.Fs.Logged
import Xv6.Fs.Bindings
import Xv6.Fs.Paths
import Xv6.Grep.Lines
import Xv6.Memory.Blocks
import Xv6.Sh.Runcmd
import Xv6.Umalloc.Requests
import Xv6.Bio.Lru
import Xv6.Spinlock
import Xv6.Vm.Mappages
import Xv6.Sysfile.Filewrite
