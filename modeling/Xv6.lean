import Xv6.Block.Reservation
import Xv6.Block.BufList
import Xv6.Fs.Names
import Xv6.Mkfs.Agreement
import Xv6.Proc.Guarantees
import Xv6.Proc.Reaping
import Xv6.Proc.Sched
import Xv6.Proc.Spared
import Xv6.Proc.Pid
import Xv6.Vm.Refine
import Xv6.Task.Image
import Xv6.Virtio.Safety
import Xv6.User.Grep
import Xv6.User.Rand
import Xv6.Io.Editor
import Xv6.Io.Write
import Xv6.Io.Readers
import Xv6.Io.Uart
import Xv6.User.Arena
import Xv6.Proc.Interrupts
import Xv6.Proc.Spinlock
import Xv6.Sys.Image
import Xv6.Sys.InodeRefs
import Xv6.User.Devine
import Xv6.Task.Fork
