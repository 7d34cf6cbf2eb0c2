import Xv6.Log.Crash
import Xv6.Proc.Killable
import Xv6.Log.Space
import Xv6.Fs.Nlink
import Xv6.Fs.Holes
import Xv6.Pipe.Fifo
import Xv6.Proc.Killed
import Xv6.Proc.Reap
import Xv6.Fs.Coherent
import Xv6.Bio.Transparent
import Xv6.Virtio.Protocol
import Xv6.Log.Waiters
import Xv6.Sleep.Sleeplock
import Xv6.Sleep.Monitor
import Xv6.Pipe.Writers
import Xv6.Proc.OneCpu
import Xv6.Fs.Unlinked
import Xv6.Fs.Budget
import Xv6.Fs.Paths
import Xv6.Mkfs.Boot
import Xv6.User.Regex
import Xv6.Vm.Transfer
import Xv6.Fs.Counts
import Xv6.User.Memmove
import Xv6.Fs.Bitmap
