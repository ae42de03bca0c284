import Xv6.Sched.Basic

/-!
# Xv6.Sched.Scheduler — one step of a CPU's scheduler thread

`scheduler()` and the five policies of `kernel/proc.c`, cut at their lock critical sections. A step
of `schedStep` is what a CPU's scheduler thread does between two such sections: lock one slot of a
scan and look at it, read one slot of FIFO's lock-free scan, or lock the chosen process again and
dispatch it. A dispatch runs `swtch` and, on the other side, the resumed process up to the point
where it releases its lock; the code after the `swtch` runs when the process gives the CPU back
(`afterSwtch`, used by `Xv6.Sched.Step`).

A step that must `acquire` a lock some other CPU's scheduler thread holds between its steps (the
`min_p` of an MLFQ scan) is not enabled: the CPU spins. An index of `quantum[]` outside the array
leaves the step undefined as well.
-/

namespace Xv6.Sched

variable {n : Nat}

/-! ## Dispatch and the code after `swtch` -/

/-- The resumed process's side of a dispatch, up to `release(&p->lock)`: inside `sleep` it clears
`p->chan`; inside `yield` and at `forkret` it only releases the lock. -/
def Proc.resume (p : Proc) : Proc :=
  match p.context with
  | .sleep => { p with chan := .null }
  | _ => p

/-- The dispatch of `schedule_rr`, `schedule_fifo`, `schedule_sjf` and `schedule_stcf`:
`p->state = RUNNING`, `p->ltime = getTime()`, and `p->stime = getTime()` when `p->rtime == 0`. -/
def Proc.dispatch (p : Proc) (now : UInt64) : Proc :=
  Proc.resume { p with state := .running, ltime := now, stime := if p.rtime = 0 then now else p.stime }

/-- The dispatch of `schedule_mlfq`, which records the first run when `p->stime == 0` instead. -/
def Proc.dispatchMlfq (p : Proc) (now : UInt64) : Proc :=
  Proc.resume { p with state := .running, ltime := now, stime := if p.stime = 0 then now else p.stime }

/-- `p->rtime += getTime() - p->ltime`, after the `swtch` of every scheduler. -/
def Proc.account (p : Proc) (now : UInt64) : Proc :=
  { p with rtime := p.rtime + (now - p.ltime) }

/-- The accounting after `schedule_stcf`'s `swtch`: `rtime`, then `time_left` decremented by the
interval when positive. The second test, `time_left < 0`, compares a `uint64` with zero and never
holds. -/
def Proc.accountStcf (p : Proc) (now : UInt64) : Proc :=
  let tl := if p.timeLeft > 0 then p.timeLeft - (now - p.ltime) else p.timeLeft
  { p with rtime := p.rtime + (now - p.ltime), timeLeft := if tl < 0 then 0 else tl }

theorem Proc.accountStcf_timeLeft (p : Proc) (now : UInt64) :
    (p.accountStcf now).timeLeft =
      if p.timeLeft > 0 then p.timeLeft - (now - p.ltime) else p.timeLeft := by
  simp only [Proc.accountStcf, UInt64.not_lt_zero, if_false]

/-- The demotion of `schedule_mlfq`: a process that used up its slice above the last level drops a
level, `priority` rises (capped at 2), and the slice is refilled from `quantum[p->priority]`. -/
def Proc.demoteMlfq (p : Proc) : Option Proc :=
  if p.timeSlice = 0 ∧ p.queueLevel < 2 then
    let prio := if p.priority < 2 then p.priority + 1 else p.priority
    (quantumAt prio).map fun q =>
      { p with priority := prio, queueLevel := p.queueLevel + 1, timeSlice := q, demote := 0 }
  else some p

/-- The accounting after `schedule_mlfq`'s `swtch`: `rtime` gets the interval, `etime` the time,
the slice is charged with `elapsed` (`demote` is set when it runs out), `rtime` gets `elapsed` once
more, and then the demotion. -/
def Proc.accountMlfq (p : Proc) (now : UInt64) : Option Proc :=
  let elapsed := now - p.ltime
  let slice := if elapsed < p.timeSlice then p.timeSlice - elapsed else 0
  let demote := if elapsed < p.timeSlice then p.demote else 1
  Proc.demoteMlfq { p with rtime := p.rtime + (now - p.ltime) + elapsed, etime := now,
                           timeSlice := slice, demote := demote }

/-- Where a scheduler thread parked in `swtch` at `k` goes on: `schedule_rr` with the next slot,
`schedule_mlfq` at `start_search`, the other scans back in `scheduler()`. -/
def Ret.next : Ret → SchedPc
  | .rr i => .rr (i + 1)
  | .mlfq => .start
  | _ => .top

/-- The scheduler code after the `swtch` that dispatched a process: the accounting of its policy
and the program counter it continues at (`schedule_rr` goes on with the next slot, the other scans
return to `scheduler()`, `schedule_mlfq` jumps to `start_search`). -/
def afterSwtch (k : Ret) (p : Proc) (now : UInt64) : Option (Proc × SchedPc) :=
  match k with
  | .rr i => some (p.account now, .rr (i + 1))
  | .fifo => some (p.account now, .top)
  | .sjf => some (p.account now, .top)
  | .stcf => some (p.accountStcf now, .top)
  | .mlfq => (p.accountMlfq now).map fun p => (p, .start)

/-- CPU `c` dispatches slot `j` with record `p`: `c->proc = j`, and the scheduler thread waits in
`swtch` to continue at `k`. -/
def Kernel.dispatch (s : Kernel n) (c : Fin n) (j : Fin NPROC) (p : Proc) (k : Ret) : Kernel n :=
  (s.setProc j p).setCpu c ⟨some j, .run k⟩

@[simp] theorem Kernel.dispatch_procs (s : Kernel n) (c : Fin n) (j : Fin NPROC) (p : Proc)
    (k : Ret) : (s.dispatch c j p k).procs = Function.update s.procs j p := rfl

@[simp] theorem Kernel.dispatch_cpus (s : Kernel n) (c : Fin n) (j : Fin NPROC) (p : Proc)
    (k : Ret) : (s.dispatch c j p k).cpus = Function.update s.cpus c ⟨some j, .run k⟩ := rfl

@[simp] theorem Kernel.dispatch_nextpid (s : Kernel n) (c : Fin n) (j : Fin NPROC) (p : Proc)
    (k : Ret) : (s.dispatch c j p k).nextpid = s.nextpid := rfl

@[simp] theorem Kernel.dispatch_now (s : Kernel n) (c : Fin n) (j : Fin NPROC) (p : Proc)
    (k : Ret) : (s.dispatch c j p k).now = s.now := rfl

/-! ## The scans -/

/-- `schedule_rr` at slot `i`: lock it, and dispatch it if it is RUNNABLE. -/
def rrStep (s : Kernel n) (c : Fin n) (i : Nat) : Option (Kernel n) :=
  if h : i < NPROC then
    let j : Fin NPROC := ⟨i, h⟩
    if s.lockedElsewhere c j then none
    else if (s.procs j).state = .runnable then
      some (s.dispatch c j ((s.procs j).dispatch s.now) (.rr i))
    else some (s.setPc c (.rr (i + 1)))
  else some (s.setPc c .top)

/-- `schedule_fifo`: at slot `i < NPROC` one lock-free read of the scan for the earliest `ctime`
(`selected->ctime` is read again at each comparison); after the scan, lock `selected`, check that it
is still RUNNABLE, and dispatch it. -/
def fifoStep (s : Kernel n) (c : Fin n) (i : Nat) (sel : Option (Fin NPROC)) :
    Option (Kernel n) :=
  if h : i < NPROC then
    let j : Fin NPROC := ⟨i, h⟩
    let p := s.procs j
    let sel' := if p.state = .runnable ∧ sel.all (fun k => p.ctime < (s.procs k).ctime) then some j
      else sel
    some (s.setPc c (.fifo (i + 1) sel'))
  else
    match sel with
    | none => some (s.setPc c .top)
    | some j =>
      if s.lockedElsewhere c j then none
      else if (s.procs j).state = .runnable then
        some (s.dispatch c j ((s.procs j).dispatch s.now) .fifo)
      else some (s.setPc c .top)

/-- The key `schedule_sjf` ranks a RUNNABLE process by: its hint, or `~0ULL` without one. -/
def sjfKey (p : Proc) : UInt64 :=
  if p.expectedRuntime ≠ 0 then p.expectedRuntime else noHint

/-- The key `schedule_stcf` ranks a RUNNABLE process by: `~0ULL` without a hint, else `time_left`. -/
def stcfKey (p : Proc) : UInt64 :=
  if p.expectedRuntime = 0 then noHint else p.timeLeft

/-- One iteration of the scans of `schedule_sjf` and `schedule_stcf` on a RUNNABLE slot `j` with
key `key`: it becomes `best` when there is none yet, or when it comes first in `(key, ctime, pid)`. -/
def Best.consider (b : Best) (j : Fin NPROC) (key : UInt64) (p : Proc) : Best :=
  if b.best = none ∨ key < b.key ∨
      (key = b.key ∧ (p.ctime < b.ctime ∨ (p.ctime = b.ctime ∧ p.pid < b.pid))) then
    ⟨some j, key, p.ctime, p.pid⟩
  else b

/-- The body shared by `schedule_sjf` and `schedule_stcf`, for the ranking `key`, the program
counter `mk` of the member's scan and the code `k` after its `swtch`. At slot `i < NPROC`: lock the
slot and let a RUNNABLE one compete for `best`. After the scan: return when there is no candidate,
run one `schedule_rr` round when the best key is `~0ULL`, else lock `best` again, give up if it is
no longer RUNNABLE, and dispatch it. -/
def shortestStep (key : Proc → UInt64) (mk : Nat → Best → SchedPc) (k : Ret)
    (s : Kernel n) (c : Fin n) (i : Nat) (b : Best) : Option (Kernel n) :=
  if h : i < NPROC then
    let j : Fin NPROC := ⟨i, h⟩
    if s.lockedElsewhere c j then none
    else
      let p := s.procs j
      some (s.setPc c (mk (i + 1) (if p.state = .runnable then b.consider j (key p) p else b)))
  else
    match b.best with
    | none => some (s.setPc c .top)
    | some j =>
      if b.key = noHint then some (s.setPc c (.rr 0))
      else if s.lockedElsewhere c j then none
      else if (s.procs j).state ≠ .runnable then some (s.setPc c .top)
      else some (s.dispatch c j ((s.procs j).dispatch s.now) k)

/-- `schedule_sjf`. -/
def sjfStep : Kernel n → Fin n → Nat → Best → Option (Kernel n) :=
  shortestStep sjfKey .sjf .sjf

/-- `schedule_stcf`. -/
def stcfStep : Kernel n → Fin n → Nat → Best → Option (Kernel n) :=
  shortestStep stcfKey .stcf .stcf

/-- `starvation_clean` at slot `i`, with the `time` it read on entry: a RUNNABLE process that has
waited more than `starv_cut` since `etime` moves one level up and gets that level's quantum. After
the last slot `schedule_mlfq` starts its level-0 scan. -/
def starvStep (s : Kernel n) (c : Fin n) (i : Nat) (time : UInt64) : Option (Kernel n) :=
  if h : i < NPROC then
    let j : Fin NPROC := ⟨i, h⟩
    if s.lockedElsewhere c j then none
    else
      let p := s.procs j
      if p.state = .runnable ∧ time - p.etime > starvCut ∧ p.queueLevel > 0 then
        (quantumAt (p.queueLevel - 1)).map fun q =>
          (s.setProc j { p with queueLevel := p.queueLevel - 1, timeSlice := q }).setPc c
            (.starv (i + 1) time)
      else some (s.setPc c (.starv (i + 1) time))
  else some (s.setPc c (.mlfq 0 0 none))

/-- The level-`prty` scan of `schedule_mlfq` at slot `i`: lock the slot; a RUNNABLE process of that
level with an earlier `ltime` than `min_p` becomes `min_p` and stays locked (the lock of the old
`min_p` is released), any other slot is released. After the scan: dispatch `min_p` (leaving through
`break` with its lock held if it is not RUNNABLE), or go on to the next level, or return after
level 2. -/
def mlfqStep (s : Kernel n) (c : Fin n) (prty i : Nat) (minP : Option (Fin NPROC)) :
    Option (Kernel n) :=
  if h : i < NPROC then
    let j : Fin NPROC := ⟨i, h⟩
    if s.lockedElsewhere c j then none
    else
      let p := s.procs j
      if p.queueLevel = prty ∧ p.state = .runnable ∧
          minP.all (fun m => p.ltime < (s.procs m).ltime) then
        some (s.setPc c (.mlfq prty (i + 1) (some j)))
      else some (s.setPc c (.mlfq prty (i + 1) minP))
  else
    match minP with
    | some j =>
      if (s.procs j).state ≠ .runnable then some (s.setPc c (.leak j))
      else some (s.dispatch c j ((s.procs j).dispatchMlfq s.now) .mlfq)
    | none =>
      if prty < 2 then some (s.setPc c (.mlfq (prty + 1) 0 none)) else some (s.setPc c .top)

/-- Where `scheduler()`'s call of the configured policy enters it. `schedule_mlfq` starts with
`starvation_clean`, which reads the time first. -/
def entry (pol : SchedPolicy) (now : UInt64) : SchedPc :=
  match pol with
  | .rr => .rr 0
  | .fifo => .fifo 0 none
  | .sjf => .sjf 0 Best.init
  | .stcf => .stcf 0 Best.init
  | .mlfq => .starv 0 now

/-- One step of the scheduler thread of CPU `c` at program counter `pc`. At `top` it calls the
policy (the `wfi` after a round without a dispatch only waits); a thread parked in `swtch` or left
after `schedule_mlfq`'s `break` takes no scheduler step. -/
def schedStep (pol : SchedPolicy) (s : Kernel n) (c : Fin n) : SchedPc → Option (Kernel n)
  | .top => some (s.setPc c (entry pol s.now))
  | .rr i => rrStep s c i
  | .fifo i sel => fifoStep s c i sel
  | .sjf i b => sjfStep s c i b
  | .stcf i b => stcfStep s c i b
  | .starv i time => starvStep s c i time
  | .mlfq prty i minP => mlfqStep s c prty i minP
  | .start => some (s.setPc c (.starv 0 s.now))
  | .run _ => none
  | .leak _ => none

end Xv6.Sched
