import Xv6.Log.CommitProofs
import Xv6.Log.Reservation
import Xv6.Smp.Reaping
import Xv6.Ipc.Kill
import Xv6.Virtio.DiskProofs
import Xv6.Itable.ItableProofs
import Xv6.Bio.Room
import Xv6.Fs.Reclaim
import Xv6.Mkfs.Agree
import Xv6.Smp.Pids
import Xv6.Fs.Undo
import Xv6.Fs.Torn
import Xv6.Ipc.Sleeplock
import Xv6.Smp.Intr
import Xv6.Fs.Chunks
import Xv6.Fs.Walk
import Xv6.Vm.PageTable
import Xv6.User.Grep
import Xv6.Sched.Pause
import Xv6.Sched.Procinfo
import Xv6.Ipc.Fault
import Xv6.Str.Memmove
import Xv6.Str.Printint
