import Xv6.Sched.Syscall

/-!
# Xv6.Sched.Step — the kernel as a transition system

A step is taken by one CPU: its scheduler thread takes one step of its scan, or the process it runs
performs one operation, or a wakeup runs on it (from a process, or from a device interrupt in the
window that `scheduler()` opens at the head of its loop). The `time` CSR moves forward on its own.
`Reachable pol` is every state the kernel built with policy `pol` reaches from `userinit`, through
any interleaving of these steps on any number of CPUs.

The running process's choices (which operation, on which channel, with which argument, whether an
allocation fails) are free: every program a process can run is covered.
-/

namespace Xv6.Sched

variable {n : Nat}

/-- What a CPU does in one step. -/
inductive Act where
  | sched
  | yield
  | sleep (chan : Chan)
  | kexit (status : Int32)
  | kwait
  | kfork (out : ForkOut)
  | kkill (pid : Int32)
  | wakeup (chan : Chan)
  | setexpected (arg : Int32)
  | setstcfvals (arg : Int32)
  | tick
  | clock (t : UInt64)
  deriving DecidableEq, Repr

/-- The running process `r` of CPU `c` gives the CPU back with record `p`, its state already
changed: `sched()`'s `swtch` returns into the scheduler at `k`, whose code after the `swtch` does
its accounting, clears `c->proc` and releases `p->lock`. -/
def Kernel.giveUp (s : Kernel n) (c : Fin n) (r : Fin NPROC) (k : Ret) (p : Proc) :
    Option (Kernel n) :=
  (afterSwtch k p s.now).map fun x => (s.setProc r x.1).setCpu c ⟨none, x.2⟩

/-- `kexit(status)` by the process in slot `r`, up to `sched()`: `reparent`, `wakeup(p->parent)`,
then the accounting under `p->lock` that makes it a ZOMBIE. `initproc` panics. -/
def Kernel.kexit (s : Kernel n) (c : Fin n) (r : Fin NPROC) (k : Ret) (status : Int32) :
    Option (Kernel n) :=
  if r = initproc then none
  else
    let ps := reparent r s.procs
    let ps := wakeupProcs (some r) (parentChan (ps r)) ps
    { s with procs := ps }.giveUp c r k
      { (ps r).kexitAccount s.now status.toInt with context := .kexit }

/-- `kwait` by the process in slot `r`: reap the first ZOMBIE child; without one, return when there
is no child or the caller is killed, else `sleep(p, &wait_lock)`. -/
def Kernel.kwait (s : Kernel n) (c : Fin n) (r : Fin NPROC) (k : Ret) : Option (Kernel n) :=
  match firstZombieChild s.procs r with
  | some z => some (s.setProc z (s.procs z).freeproc)
  | none =>
    if HasKids s.procs r ∧ (s.procs r).killed = 0 then
      s.giveUp c r k { s.procs r with chan := .proc r, state := .sleeping, context := .sleep }
    else some s

/-- An operation of the process `r` that CPU `c` runs, whose scheduler thread waits at `k`. -/
def procStep (s : Kernel n) (c : Fin n) (r : Fin NPROC) (k : Ret) : Act → Option (Kernel n)
  | .yield => s.giveUp c r k { s.procs r with state := .runnable, context := .yield }
  | .sleep chan =>
    s.giveUp c r k { s.procs r with chan := chan, state := .sleeping, context := .sleep }
  | .kexit status => s.kexit c r k status
  | .kwait => s.kwait c r k
  | .kfork out => some (s.kfork r out)
  | .kkill pid => some (s.kkill pid)
  | .setexpected arg => some (s.setProc r ((s.procs r).setexpected arg))
  | .setstcfvals arg => some (s.setProc r ((s.procs r).setstcfvals arg))
  | .tick => some (s.setProc r (s.procs r).tick)
  | .sched => none
  | .wakeup _ => none
  | .clock _ => none

/-- One step of CPU `c` under policy `pol`, or `none` when the action is not enabled. -/
def step (pol : SchedPolicy) (s : Kernel n) (c : Fin n) : Act → Option (Kernel n)
  | .sched => if (s.cpus c).proc = none then schedStep pol s c (s.cpus c).pc else none
  | .wakeup chan =>
    if (s.cpus c).proc ≠ none ∨ (s.cpus c).pc = .top then
      some { s with procs := wakeupProcs (s.cpus c).proc chan s.procs }
    else none
  | .clock t => if s.now ≤ t then some { s with now := t } else none
  | a =>
    match (s.cpus c).proc, (s.cpus c).pc with
    | some r, .run k => procStep s c r k a
    | _, _ => none

/-- Some CPU takes a step from `s` to `s'`. -/
def Step (pol : SchedPolicy) (s s' : Kernel n) : Prop :=
  ∃ c a, step pol s c a = some s'

/-- `initproc` after `userinit`: `allocproc`'s fields for pid 1, RUNNABLE, `ctime` stamped again. -/
def initProc (t : UInt64) : Proc :=
  { (Proc.unused.allocStart 1).allocInit t with state := .runnable, ctime := t }

/-- The state after `main` has run `procinit` and `userinit` at time `t`: `initproc` in slot 0,
every other slot zero, every CPU at the head of `scheduler()`. -/
def Kernel.boot (t : UInt64) : Kernel n where
  procs := fun j => if j = initproc then initProc t else Proc.unused
  cpus := fun _ => ⟨none, .top⟩
  nextpid := 2
  now := t

/-- The states the kernel built with policy `pol` reaches. -/
inductive Reachable (pol : SchedPolicy) : Kernel n → Prop where
  | boot (t : UInt64) : Reachable pol (Kernel.boot t)
  | step {s s' : Kernel n} : Reachable pol s → Step pol s s' → Reachable pol s'

end Xv6.Sched
