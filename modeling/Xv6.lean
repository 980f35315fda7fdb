import Xv6.Bio.Lru
import Xv6.Bio.Sound
import Xv6.Fs.Dir
import Xv6.Fs.Write
import Xv6.Kernel.ExecFile
import Xv6.Kernel.ForkCopy
import Xv6.Kernel.Isolation
import Xv6.Kernel.Kill
import Xv6.Kernel.PipeRead
import Xv6.Kernel.Sbrk
import Xv6.Log.Reservation
import Xv6.Primes.Runs
import Xv6.Proc.Deadlock
import Xv6.Proc.Intr
import Xv6.Sh.Words
import Xv6.Sleep.Console
import Xv6.Sleep.Fifo
import Xv6.Sleep.Sleeplock
import Xv6.Sleep.Uart
import Xv6.User.Grep
import Xv6.User.Xargs
import Xv6.Virtio.Runs
