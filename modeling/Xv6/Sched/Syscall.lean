import Xv6.Sched.Scheduler

/-!
# Xv6.Sched.Syscall — the process operations of `kernel/proc.c` and `kernel/sysproc.c`

`allocproc`, `freeproc`, `kfork`, `reparent`, `kexit`, `kwait`, `wakeup`, `kkill`, the scheduling
hints `sys_setexpected` and `sys_setstcfvals`, and the timer accounting of `usertrap`. Each operation
is one step of the model: its critical sections run back to back. Those of `kexit` and `kwait` are
ordered by `wait_lock`, which both hold from the scan of the children to the end; `wakeup` is called
with its condition lock held, so a CPU does not leave it halfway.

The operations that end in `sched()` (`yield`, `sleep`, `kexit`, the sleep of `kwait`) are put
together with the scheduler's code after `swtch` in `Xv6.Sched.Step`.
-/

namespace Xv6.Sched

variable {n : Nat}

/-! ## Allocation and release of a slot -/

/-- `freeproc`: every field is cleared and the slot is `UNUSED` again. `time_left` and the saved
context are not touched. -/
def Proc.freeproc (p : Proc) : Proc :=
  { p with pid := 0, parent := none, chan := .null, killed := 0, xstate := 0, ctime := 0,
           etime := 0, rtime := 0, stime := 0, ltime := 0, expectedRuntime := 0, priority := 0,
           queueLevel := 0, timeSlice := 0, demote := 0, state := .unused }

/-- The start of `allocproc`'s `found:` branch: `p->pid = allocpid()`, `p->state = USED`. -/
def Proc.allocStart (p : Proc) (pid : Int) : Proc :=
  { p with pid := pid, state := .used }

/-- The rest of `allocproc` once the trapframe and the page table are allocated: the context that
enters `forkret`, and the scheduling fields. Neither `killed` nor `chan` nor `parent` is written. -/
def Proc.allocInit (p : Proc) (now : UInt64) : Proc :=
  { p with context := .forkret, ctime := now, etime := 0, rtime := 0, stime := 0, ltime := 0,
           expectedRuntime := 0, timeLeft := 0, priority := 0, queueLevel := 0,
           timeSlice := quantum.get 0, demote := 0 }

/-- The slot `allocproc`'s scan stops at: the first `UNUSED` one. -/
def firstUnused (ps : Fin NPROC → Proc) : Option (Fin NPROC) :=
  (List.finRange NPROC).find? fun j => (ps j).state = .unused

/-- How `kfork`'s allocations end: all succeed, `kalloc` or `proc_pagetable` fails inside
`allocproc`, or `uvmcopy` fails after it. -/
inductive ForkOut where
  | ok
  | allocFail
  | copyFail
  deriving DecidableEq, Repr

/-- `kfork` by the process in slot `r`. Without an `UNUSED` slot nothing changes. Otherwise the slot
gets the next pid; on a failed allocation `freeproc` returns it, else the child gets `r`'s hint,
`r` as parent (under `wait_lock`), and becomes RUNNABLE. -/
def Kernel.kfork (s : Kernel n) (r : Fin NPROC) (out : ForkOut) : Kernel n :=
  match firstUnused s.procs with
  | none => s
  | some j =>
    let np := (s.procs j).allocStart s.nextpid
    let s' := { s with nextpid := s.nextpid + 1 }
    match out with
    | .allocFail => s'.setProc j np.freeproc
    | .copyFail => s'.setProc j (np.allocInit s.now).freeproc
    | .ok =>
      s'.setProc j { np.allocInit s.now with
        expectedRuntime := (s.procs r).expectedRuntime, parent := some r, state := .runnable }

@[simp] theorem Kernel.kfork_cpus (s : Kernel n) (r : Fin NPROC) (out : ForkOut) :
    (s.kfork r out).cpus = s.cpus := by
  unfold Kernel.kfork
  split
  · rfl
  · split <;> rfl

@[simp] theorem Kernel.kfork_now (s : Kernel n) (r : Fin NPROC) (out : ForkOut) :
    (s.kfork r out).now = s.now := by
  unfold Kernel.kfork
  split
  · rfl
  · split <;> rfl

/-! ## Sleep channels -/

/-- `wakeup(chan)` run on a CPU whose current process is `me`: every other process sleeping on
`chan` becomes RUNNABLE. -/
def wakeupProcs (me : Option (Fin NPROC)) (chan : Chan) (ps : Fin NPROC → Proc) :
    Fin NPROC → Proc :=
  fun j => if me ≠ some j ∧ (ps j).state = .sleeping ∧ (ps j).chan = chan then
      { ps j with state := .runnable } else ps j

/-- `p->parent` as a channel. -/
def parentChan (p : Proc) : Chan :=
  match p.parent with
  | none => .null
  | some j => .proc j

/-- `reparent(p)`: every child of `p` moves to `initproc`, and for each one `wakeup(initproc)` runs
on `p`'s CPU. The first of those wakeups leaves nothing sleeping on `initproc`, so the loop amounts
to one wakeup when `p` has a child. -/
def reparent (p : Fin NPROC) (ps : Fin NPROC → Proc) : Fin NPROC → Proc :=
  let moved : Fin NPROC → Proc := fun j =>
    if (ps j).parent = some p then { ps j with parent := some initproc } else ps j
  if ∃ j, (ps j).parent = some p then wakeupProcs (some p) (.proc initproc) moved else moved

/-- The accounting of `kexit` under `p->lock`, before it turns the process into a ZOMBIE: the slice
is charged with the time since `ltime`, `rtime` gets the same interval, `time_left` is decremented
when positive (the second test compares a `uint64` with zero and never holds), and `etime` is the
exit time. -/
def Proc.kexitAccount (p : Proc) (now : UInt64) (status : Int) : Proc :=
  let elapsed := now - p.ltime
  let slice := if elapsed < p.timeSlice then p.timeSlice - elapsed else 0
  let demote := if elapsed < p.timeSlice then p.demote else 1
  let tl := if p.timeLeft > 0 then p.timeLeft - elapsed else p.timeLeft
  { p with timeSlice := slice, demote := demote, xstate := status, rtime := p.rtime + elapsed,
           timeLeft := if tl < 0 then 0 else tl, etime := now, state := .zombie }

theorem Proc.kexitAccount_timeLeft (p : Proc) (now : UInt64) (status : Int) :
    (p.kexitAccount now status).timeLeft =
      if p.timeLeft > 0 then p.timeLeft - (now - p.ltime) else p.timeLeft := by
  simp only [Proc.kexitAccount, UInt64.not_lt_zero, if_false]

/-! ## `kwait` and `kkill` -/

/-- The child `kwait`'s scan reaps: the first ZOMBIE slot whose parent is `r`. -/
def firstZombieChild (ps : Fin NPROC → Proc) (r : Fin NPROC) : Option (Fin NPROC) :=
  (List.finRange NPROC).find? fun j => (ps j).parent = some r ∧ (ps j).state = .zombie

/-- `havekids` of `kwait`'s scan. -/
def HasKids (ps : Fin NPROC → Proc) (r : Fin NPROC) : Prop :=
  ∃ j, (ps j).parent = some r

instance (ps : Fin NPROC → Proc) (r : Fin NPROC) : Decidable (HasKids ps r) :=
  inferInstanceAs (Decidable (∃ j, (ps j).parent = some r))

/-- The slot `kkill(pid)`'s scan stops at: the first whose `pid` field equals the argument. -/
def firstWithPid (ps : Fin NPROC → Proc) (pid : Int) : Option (Fin NPROC) :=
  (List.finRange NPROC).find? fun j => (ps j).pid = pid

/-- `kkill(pid)`: the slot found is marked killed, and woken if it sleeps. -/
def Kernel.kkill (s : Kernel n) (pid : Int32) : Kernel n :=
  match firstWithPid s.procs pid.toInt with
  | none => s
  | some j =>
    let p := s.procs j
    s.setProc j { p with killed := 1, state := if p.state = .sleeping then .runnable else p.state }

@[simp] theorem Kernel.kkill_cpus (s : Kernel n) (pid : Int32) : (s.kkill pid).cpus = s.cpus := by
  unfold Kernel.kkill
  split <;> rfl

@[simp] theorem Kernel.kkill_now (s : Kernel n) (pid : Int32) : (s.kkill pid).now = s.now := by
  unfold Kernel.kkill
  split <;> rfl

@[simp] theorem Kernel.kkill_nextpid (s : Kernel n) (pid : Int32) :
    (s.kkill pid).nextpid = s.nextpid := by
  unfold Kernel.kkill
  split <;> rfl

/-! ## Scheduling hints -/

/-- The value `sys_setexpected` and `sys_setstcfvals` store: the `int` argument, negative ones
raised to 0, converted to `uint64`. -/
def hintOf (arg : Int32) : UInt64 :=
  UInt64.ofNat (max arg.toInt 0).toNat

/-- A hint fits in the `int` it came from. -/
theorem hintOf_toNat_lt (arg : Int32) : (hintOf arg).toNat < 2 ^ 31 := by
  have h := arg.toInt_lt
  simp only [hintOf, UInt64.toNat_ofNat']
  omega

/-- `sys_setexpected`. -/
def Proc.setexpected (p : Proc) (arg : Int32) : Proc :=
  { p with expectedRuntime := hintOf arg }

/-- `sys_setstcfvals`: the hint, and `time_left = expected + 1`. -/
def Proc.setstcfvals (p : Proc) (arg : Int32) : Proc :=
  { p with expectedRuntime := hintOf arg, timeLeft := hintOf arg + 1 }

/-- The timer branch of `usertrap` before its `yield()`: a RUNNING process gets one more unit of
`rtime`. -/
def Proc.tick (p : Proc) : Proc :=
  if p.state = .running then { p with rtime := p.rtime + 1 } else p

end Xv6.Sched
