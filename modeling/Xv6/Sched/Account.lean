import Xv6.Sched.Uni

/-!
# Xv6.Sched.Account — `rtime` at exit

Every scheduler charges the interval a process ran, `getTime() - p->ltime`, to `p->rtime` in its
code after `swtch`. `kexit` charges the same interval under `p->lock` before its `sched()`, which
returns into that code, so the last interval of an exiting process is counted twice; under
`schedule_mlfq`, whose code after `swtch` adds `elapsed` once more, three times. A ZOMBIE's
`rtime` can then exceed `etime - ctime`.
-/

namespace Xv6.Sched

variable {n : Nat} {s s' : Kernel n}

/-! ## The code after `swtch` -/

/-- The RR, FIFO, SJF and STCF schedulers charge the interval once. -/
theorem afterSwtch_rtime {k : Ret} {p p' : Proc} {now : UInt64} {pc : SchedPc} (hk : k ≠ .mlfq)
    (h : afterSwtch k p now = some (p', pc)) : p'.rtime = p.rtime + (now - p.ltime) := by
  cases k with
  | mlfq => exact absurd rfl hk
  | rr i | fifo | sjf | stcf =>
    cases h
    rfl

/-- `schedule_mlfq` charges it twice, as `getTime() - p->ltime` and as `elapsed`; the demotion
leaves `rtime` alone. -/
theorem afterSwtch_rtime_mlfq {p p' : Proc} {now : UInt64} {pc : SchedPc}
    (h : afterSwtch .mlfq p now = some (p', pc)) :
    p'.rtime = p.rtime + (now - p.ltime) + (now - p.ltime) := by
  simp only [afterSwtch, Option.map_eq_some_iff, Prod.mk.injEq] at h
  obtain ⟨q, hq, rfl, -⟩ := h
  unfold Proc.accountMlfq at hq
  rw [Proc.demoteMlfq_frame hq]

/-! ## `kexit` -/

/-- Under RR, FIFO, SJF and STCF the exiting process gets its last interval twice: once from
`kexit`, once from the scheduler it returns to. -/
theorem kexit_rtime {c : Fin n} {r : Fin NPROC} {k : Ret} {status : Int32} (hk : k ≠ .mlfq)
    (h : s.kexit c r k status = some s') :
    (s'.procs r).rtime =
      (s.procs r).rtime + (s.now - (s.procs r).ltime) + (s.now - (s.procs r).ltime) := by
  obtain ⟨pc, hx⟩ := kexit_self h
  rw [afterSwtch_rtime hk hx]
  rfl

/-- Under MLFQ it gets it three times. -/
theorem kexit_rtime_mlfq {c : Fin n} {r : Fin NPROC} {status : Int32}
    (h : s.kexit c r .mlfq status = some s') :
    (s'.procs r).rtime = (s.procs r).rtime + (s.now - (s.procs r).ltime) +
      (s.now - (s.procs r).ltime) + (s.now - (s.procs r).ltime) := by
  obtain ⟨pc, hx⟩ := kexit_self h
  rw [afterSwtch_rtime_mlfq hx]
  rfl

/-- Under RR, init forks a child at time 10 and yields; the round dispatches the child, which
exits at time 20. -/
def rrExited : Kernel 1 :=
  runTo .rr (Kernel.boot 0)
    [(cpu0, .sched), (cpu0, .sched), (cpu0, .clock 10), (cpu0, .kfork .ok), (cpu0, .yield),
      (cpu0, .sched), (cpu0, .clock 20), (cpu0, .kexit 0)]

/-- The child ran from time 10 to 20 and is a ZOMBIE with `rtime = 20 > etime - ctime = 10`. -/
theorem zombie_rtime_exceeds_lifetime :
    Reachable .rr rrExited ∧ (rrExited.procs 1).state = .zombie ∧
      (rrExited.procs 1).ctime = 10 ∧ (rrExited.procs 1).etime = 20 ∧
      (rrExited.procs 1).rtime = 20 :=
  ⟨reachable_runTo (.boot 0) _, by decide, by decide, by decide, by decide⟩

end Xv6.Sched
