import Xv6.Bio.Store
import Xv6.Console.Reads
import Xv6.Exec.Program
import Xv6.File.Read
import Xv6.Fs.Chunk
import Xv6.Fs.Failed
import Xv6.Fs.Offset
import Xv6.Ftable.Refs
import Xv6.Grep.Lines
import Xv6.Ipc.Sleepers
import Xv6.Log.CrashAtomic
import Xv6.Log.Reserve
import Xv6.Printf.Printint
import Xv6.Proc.Kill
import Xv6.Proc.Wait
import Xv6.Sched.OneCpu
import Xv6.Sched.Sharing
import Xv6.Umalloc.Large
import Xv6.Virtio.Match
import Xv6.Vm.Accessed
import Xv6.Vm.Mapping
import Xv6.Vm.Strings
import Xv6.Vm.Vmprint
import Xv6.Memmove
import Xv6.Sleeplock
