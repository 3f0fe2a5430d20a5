import Xv6.Bio.Crash
import Xv6.Bio.Lru
import Xv6.Console.Lines
import Xv6.Fs.DirMap
import Xv6.Fs.ItableInv
import Xv6.Fs.Reserve
import Xv6.Grep.Lines
import Xv6.Input.Reads
import Xv6.Kern.Fork
import Xv6.Kern.Loading
import Xv6.Log.Reserve
import Xv6.Log.Waiters
import Xv6.Mkfs.Agree
import Xv6.Pipe.Fifo
import Xv6.Pipe.Wakeup
import Xv6.Printf.Numbers
import Xv6.Proc.Interruptible
import Xv6.Proc.Kill
import Xv6.Proc.NestingInv
import Xv6.Proc.Notify
import Xv6.Proc.SchedInv
import Xv6.Trap.Registers
import Xv6.Umalloc.Malloc
import Xv6.Virtio.Protocol
