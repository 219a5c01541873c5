import Xv6.Console.Refines
import Xv6.Fs.Coherence
import Xv6.Fs.Dir
import Xv6.Fs.LinkWrap
import Xv6.Fs.Resolve
import Xv6.Log.BcacheRun
import Xv6.Log.Crash
import Xv6.Log.GroupCommit
import Xv6.Log.Lru
import Xv6.Log.Protocol
import Xv6.Mkfs.Main
import Xv6.Pipe.Wakeup
import Xv6.Proc.Exclusive
import Xv6.Proc.Kill
import Xv6.Proc.KillSleep
import Xv6.Proc.Nesting
import Xv6.Proc.SleepLock
import Xv6.Proc.Tree
import Xv6.Sh.Pipeline
import Xv6.Sh.Redirect
import Xv6.User.GrepLines
import Xv6.User.Malloc
import Xv6.User.Memmove
import Xv6.User.Printf
import Xv6.User.Sleep
import Xv6.User.Wc
import Xv6.Virtio.Requests
import Xv6.Vm.CopyStr
import Xv6.Vm.Kalloc
import Xv6.Vm.Lifetime
