import Xv6.Bio.Machine
import Xv6.Console.Refinement
import Xv6.Fs.Crash
import Xv6.Fs.DirMap
import Xv6.Fs.Failures
import Xv6.Ide.Agreement
import Xv6.Inode.Iput
import Xv6.Log.Exhaustion
import Xv6.Log.Reservation
import Xv6.Mkfs.ReadBack
import Xv6.Mp
import Xv6.Pipe.Wakeup
import Xv6.Proc.Clock
import Xv6.Proc.Exclusive
import Xv6.Proc.Interrupts
import Xv6.Proc.Kill
import Xv6.Proc.Pids
import Xv6.Proc.Sleeplock
import Xv6.Sh.Parser
import Xv6.Umalloc.Runs
import Xv6.User.Grep
import Xv6.User.Memmove
import Xv6.Vm.Arguments
import Xv6.Vm.Program
