import Xv6.Sched.Table

/-!
# Xv6.Sched.Info — `sys_getprocinfo`

`sys_getprocinfo(pid, addr)` finds a slot with `getproc(pid)`, which matches on the pid alone and
releases the slot's lock before it returns. The caller then takes the lock again and copies the
slot's fields into a `struct procinfo`, which `copyout` writes to user memory. Between the two
critical sections other CPUs run, so the fields are read from the table as it is then: the model
takes the table `getproc` scans and the table the fields are read from as two arguments.

On one table, and for a pid other than 0, the record describes a process in use with the pid asked
for (`getprocinfo_sound`). Freed slots keep pid 0, so `getproc(0)` finds an UNUSED slot
(`getprocinfo_zero_reports_unused`), and a slot reaped between the two critical sections is read
as the UNUSED slot it has become (`getprocinfo_reads_reaped_slot`).
-/

namespace Xv6.Sched

variable {n : Nat}

/-- `struct procinfo`. The `name` is left out, as the model has no process names; `time_slice`, an
`int` there, holds a slice of `quantum`, which fits. -/
structure Procinfo where
  pid : Int
  state : Procstate
  ctime : UInt64
  etime : UInt64
  rtime : UInt64
  stime : UInt64
  expectedRuntime : UInt64
  timeLeft : UInt64
  priority : Int
  queueLevel : Int
  timeSlice : UInt64
  deriving DecidableEq, Repr

/-- The fields `sys_getprocinfo` copies from a `struct proc` under its lock. -/
def Procinfo.ofProc (p : Proc) : Procinfo where
  pid := p.pid
  state := p.state
  ctime := p.ctime
  etime := p.etime
  rtime := p.rtime
  stime := p.stime
  expectedRuntime := p.expectedRuntime
  timeLeft := p.timeLeft
  priority := p.priority
  queueLevel := p.queueLevel
  timeSlice := p.timeSlice

/-- `getproc(pid)`: the first slot whose pid matches, whatever its state; the scan of `kkill`. -/
def getproc (ps : Fin NPROC → Proc) (pid : Int) : Option (Fin NPROC) :=
  firstWithPid ps pid

/-- `sys_getprocinfo`: `getproc` on the table `ps`, the fields of the slot found read from the table
`ps'` as it is at the second `acquire`, and a `copyout` that fails when `copyOk` is false. The
return value, and the record written to user memory. -/
def sysGetprocinfo (ps ps' : Fin NPROC → Proc) (pid : Int32) (copyOk : Bool) :
    Int × Option Procinfo :=
  match getproc ps pid.toInt with
  | none => (-1, none)
  | some j => if copyOk then (0, some (Procinfo.ofProc (ps' j))) else (-1, none)

/-- `sys_getprocinfo` returns 0 exactly when `getproc` finds a slot and `copyout` succeeds, and
then it writes the fields of that slot as they are at the second `acquire`. -/
theorem sysGetprocinfo_eq_zero {ps ps' : Fin NPROC → Proc} {pid : Int32} {copyOk : Bool}
    (h : (sysGetprocinfo ps ps' pid copyOk).1 = 0) :
    ∃ j, getproc ps pid.toInt = some j ∧ copyOk = true ∧
      sysGetprocinfo ps ps' pid copyOk = (0, some (Procinfo.ofProc (ps' j))) := by
  unfold sysGetprocinfo at h ⊢
  cases hg : getproc ps pid.toInt with
  | none =>
    rw [hg] at h
    cases h
  | some j =>
    rw [hg] at h
    cases copyOk with
    | false => cases h
    | true => exact ⟨j, rfl, rfl, rfl⟩

/-- In every reachable state, for a pid other than 0: `sys_getprocinfo` returns 0 only if a
process in use has that pid, and when nothing runs between `getproc` and the field reads, the
record it writes is that of a process in use, with the pid asked for. -/
theorem getprocinfo_sound {pol : SchedPolicy} {s : Kernel n} (h : Reachable pol s) {pid : Int32}
    (hpid : pid.toInt ≠ 0) (copyOk : Bool) :
    (∀ ps', (sysGetprocinfo s.procs ps' pid copyOk).1 = 0 →
      ∃ j, (s.procs j).state ≠ .unused ∧ (s.procs j).pid = pid.toInt) ∧
    (∀ info, sysGetprocinfo s.procs s.procs pid copyOk = (0, some info) →
      info.state ≠ .unused ∧ info.pid = pid.toInt) := by
  -- the slot `getproc` finds has the pid, and an UNUSED slot has pid 0
  have hfound : ∀ j, getproc s.procs pid.toInt = some j →
      (s.procs j).state ≠ .unused ∧ (s.procs j).pid = pid.toInt := by
    intro j hj
    have hp : (s.procs j).pid = pid.toInt := firstWithPid_pid hj
    refine ⟨fun hu => hpid ?_, hp⟩
    rw [← hp]
    exact (cleared_of_reachable h j hu).1
  constructor
  · intro ps' h0
    obtain ⟨j, hj, -, -⟩ := sysGetprocinfo_eq_zero h0
    exact ⟨j, hfound j hj⟩
  · intro info hinfo
    obtain ⟨j, hj, -, heq⟩ := sysGetprocinfo_eq_zero (by rw [hinfo])
    rw [hinfo, Prod.mk.injEq, Option.some.injEq] at heq
    rw [heq.2]
    exact hfound j hj

/-- At boot no process in use has pid 0, yet `getprocinfo(0)` returns 0 and writes the record of
slot 1, which is UNUSED. -/
theorem getprocinfo_zero_reports_unused :
    (∀ j, ((Kernel.boot 0 : Kernel 1).procs j).state ≠ .unused →
      ((Kernel.boot 0 : Kernel 1).procs j).pid ≠ 0) ∧
    ∃ info, sysGetprocinfo (Kernel.boot 0 : Kernel 1).procs (Kernel.boot 0 : Kernel 1).procs 0 true =
      (0, some info) ∧ info.pid = 0 ∧ info.state = .unused :=
  ⟨by decide, ⟨Procinfo.ofProc Proc.unused, by decide, rfl, rfl⟩⟩

/-- Under RR on two CPUs: init, on CPU 0, forks two children; CPU 1 runs the first, which exits,
and then dispatches the second. -/
def reapRace : Kernel 2 :=
  runTo .rr (Kernel.boot 0)
    [(0, .sched), (0, .sched), (0, .kfork .ok), (0, .kfork .ok), (1, .sched), (1, .sched),
      (1, .sched), (1, .kexit 0), (1, .sched)]

set_option maxRecDepth 20000 in
/-- The second child, on CPU 1, calls `getprocinfo(2)`, and `getproc` finds the ZOMBIE first child
in slot 1. Before the fields are read, init's `kwait` on CPU 0 reaps it: the call returns 0 with
the record of an UNUSED slot with pid 0. -/
theorem getprocinfo_reads_reaped_slot :
    Reachable .rr reapRace ∧ (reapRace.cpus 1).proc = some 2 ∧
    getproc reapRace.procs 2 = some 1 ∧ (reapRace.procs 1).state = .zombie ∧
    (step .rr reapRace 0 .kwait).map (fun t =>
      let r := sysGetprocinfo reapRace.procs t.procs 2 true
      (r.1, r.2.map fun info => (info.pid, info.state))) = some (0, some (0, .unused)) :=
  ⟨reachable_runTo (.boot 0) _, by decide⟩

end Xv6.Sched
