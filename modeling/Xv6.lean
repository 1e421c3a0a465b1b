import Xv6.Bio.Coherence
import Xv6.Log.Crash
import Xv6.Log.Reserve
import Xv6.Sys.Deadlock
import Xv6.Inodes.Coherence
import Xv6.Pipes.Fifo
import Xv6.Pipes.Wakeup
import Xv6.Trans.Balance
import Xv6.Procs.Pid
import Xv6.Sleep.Mutex
import Xv6.Cons.Lines
import Xv6.Ide.Refine
import Xv6.Vm.Lookup
import Xv6.Vm.Processes
import Xv6.Kern.Exec
import Xv6.Sh.Redirections
import Xv6.Calls.Bytes
import Xv6.Calls.Full
import Xv6.Sys.Resolve
import Xv6.Sys.Unlink
import Xv6.Args.Fetch
import Xv6.Grep.Lines
import Xv6.Mp.Table
import Xv6.Str.Memmove
