import Xv6.Lib.Run
import Xv6.Sched.Basic
import Xv6.Sched.Scheduler
import Xv6.Sched.Syscall
import Xv6.Sched.Step
import Xv6.Sched.Cases
import Xv6.Sched.Exclusive
import Xv6.Sched.Slot
import Xv6.Sched.Wf
import Xv6.Sched.Uni
import Xv6.Sched.Fifo
import Xv6.Sched.Rr
import Xv6.Lib.Scan
import Xv6.Sched.Shortest
import Xv6.Sched.ShortestOrder
import Xv6.Sched.Mlfq
import Xv6.Sched.Table
import Xv6.Sched.Account
import Xv6.Lib.Ring
import Xv6.Lib.Lock
import Xv6.Lib.Crash
import Xv6.Lib.Tally
import Xv6.Pipe.Basic
import Xv6.Pipe.Safety
import Xv6.Console.Basic
import Xv6.Console.Safety
import Xv6.Log.Basic
import Xv6.Log.Recovery
import Xv6.Log.Op
import Xv6.Log.Trans
import Xv6.Lib.DList
import Xv6.Bio.Basic
import Xv6.Bio.Cache
import Xv6.File.Basic
import Xv6.File.Refs
import Xv6.Lib.Bytes
import Xv6.Lib.Loop
import Xv6.Fs.Basic
import Xv6.Fs.Alloc
import Xv6.Fs.Run
import Xv6.Fs.Content
import Xv6.Sched.Stcf
import Xv6.Sched.Pick
import Xv6.Sched.Starve
import Xv6.Sched.Info
import Xv6.Fs.Mkfs
import Xv6.Fs.Path
import Xv6.User.Grep
import Xv6.Virtio.Disk
import Xv6.Virtio.Safety
import Xv6.Vm.Basic
import Xv6.User.Umalloc
import Xv6.Lib.Word
import Xv6.Vm.Walk
import Xv6.Vm.Map
import Xv6.Console.Printf
import Xv6.Vm.Fault
import Xv6.Vm.Copy
import Xv6.Vm.Uvm
import Xv6.Exec.Stack
import Xv6.Vm.Fork
import Xv6.Vm.Sbrk
import Xv6.Vm.Free
import Xv6.Vm.Life
import Xv6.Vm.Proc
