import Xv6.Sched.ShortestOrder

/-!
# Xv6.Sched.Stcf — `time_left` and the hints of STCF

`schedule_stcf` and `kexit` charge the interval a process ran, `getTime() - p->ltime`, to a
positive `time_left` by a subtraction on `uint64`, and then test `time_left < 0`, which no `uint64`
is. An interval longer than what is left does not stop at 0: `time_left` wraps around to
`2^64 - (e - t)`, more than it was, so the process that was about to finish ranks last
(`Proc.accountStcf_timeLeft_wraps`, `Proc.kexitAccount_timeLeft_wraps`; a run to it from boot is
`stcf_time_left_wraps`).

`kfork` copies `expected_runtime` to the child but not `time_left`, which `allocproc` sets to 0,
and `sys_setexpected` sets the hint alone. Either way a process with a hint and `time_left` 0 has
the key 0, the best there is, without having run (`Kernel.kfork_child_stcfKey`,
`stcfKey_setexpected`, and the run `kfork_child_time_left_zero`).
-/

namespace Xv6.Sched

variable {n : Nat}

/-! ## The charge of an interval -/

/-- `t - e` on `uint64` with `e > t` wraps around to `2^64 - (e - t)`, which is more than `t`. -/
theorem uint64_sub_wraps {t e : UInt64} (h : t < e) :
    (t - e).toNat = 2 ^ 64 - (e.toNat - t.toNat) ∧ t < t - e := by
  have ht : t.toNat < 2 ^ 64 := t.toNat_lt
  have he : e.toNat < 2 ^ 64 := e.toNat_lt
  rw [UInt64.lt_iff_toNat_lt] at h
  have hsub : (t - e).toNat = 2 ^ 64 - (e.toNat - t.toNat) := by
    rw [UInt64.toNat_sub, Nat.mod_eq_of_lt (by omega)]
    omega
  refine ⟨hsub, ?_⟩
  rw [UInt64.lt_iff_toNat_lt, hsub]
  omega

/-- `schedule_stcf`'s accounting of an interval longer than a positive `time_left` leaves
`2^64 - (e - t)` where the clamp is meant to leave 0. -/
theorem Proc.accountStcf_timeLeft_wraps {p : Proc} {now : UInt64} (hpos : 0 < p.timeLeft)
    (hover : p.timeLeft < now - p.ltime) :
    (p.accountStcf now).timeLeft.toNat = 2 ^ 64 - ((now - p.ltime).toNat - p.timeLeft.toNat) ∧
      p.timeLeft < (p.accountStcf now).timeLeft := by
  rw [Proc.accountStcf_timeLeft, if_pos hpos]
  exact uint64_sub_wraps hover

/-- The same charge in `kexit`. -/
theorem Proc.kexitAccount_timeLeft_wraps {p : Proc} {now : UInt64} (status : Int)
    (hpos : 0 < p.timeLeft) (hover : p.timeLeft < now - p.ltime) :
    (p.kexitAccount now status).timeLeft.toNat =
        2 ^ 64 - ((now - p.ltime).toNat - p.timeLeft.toNat) ∧
      p.timeLeft < (p.kexitAccount now status).timeLeft := by
  rw [Proc.kexitAccount_timeLeft, if_pos hpos]
  exact uint64_sub_wraps hover

/-- Under STCF, init, dispatched by the first `schedule_rr` round, sets hint 5, so `time_left` 6,
and yields. The round ends, the next pass dispatches init, and it runs for 7 ticks of the clock. -/
def stcfWrapped : Kernel 1 :=
  runTo .stcf (Kernel.boot 0)
    (List.replicate 67 (cpu0, Act.sched) ++ [(cpu0, Act.setstcfvals 5), (cpu0, Act.yield)] ++
      List.replicate 64 (cpu0, Act.sched) ++ List.replicate 66 (cpu0, Act.sched) ++
      [(cpu0, Act.clock 7)])

/-- Init runs 7 ticks with `time_left` 6; when it yields, `time_left` becomes `2^64 - 1`, not 0:
it rises, and not through `sys_setstcfvals`. -/
theorem stcf_time_left_wraps :
    Reachable .stcf stcfWrapped ∧ (stcfWrapped.cpus cpu0).proc = some 0 ∧
    (stcfWrapped.procs 0).timeLeft = 6 ∧ stcfWrapped.now - (stcfWrapped.procs 0).ltime = 7 ∧
    (step .stcf stcfWrapped cpu0 .yield).map (fun s => (s.procs 0).timeLeft) = some noHint :=
  ⟨reachable_runTo (.boot 0) _, by decide⟩

/-! ## Hints without `time_left` -/

/-- `sys_setexpected` leaves `time_left` as it was, so STCF ranks the process by it: by 0 if it
never called `sys_setstcfvals`. -/
theorem stcfKey_setexpected (p : Proc) {arg : Int32} (harg : hintOf arg ≠ 0) :
    stcfKey (p.setexpected arg) = p.timeLeft := by
  simp [stcfKey, Proc.setexpected, harg]

/-- The child of a successful `kfork` has its parent's hint, `time_left` 0 and no run time, and is
RUNNABLE. -/
theorem Kernel.kfork_child {s : Kernel n} {r j : Fin NPROC} (hj : firstUnused s.procs = some j) :
    ((s.kfork r .ok).procs j).expectedRuntime = (s.procs r).expectedRuntime ∧
      ((s.kfork r .ok).procs j).timeLeft = 0 ∧ ((s.kfork r .ok).procs j).rtime = 0 ∧
      ((s.kfork r .ok).procs j).state = .runnable := by
  simp [Kernel.kfork, hj, Proc.allocInit]

/-- So the child of a hinted parent has the STCF key 0. -/
theorem Kernel.kfork_child_stcfKey {s : Kernel n} {r j : Fin NPROC}
    (hj : firstUnused s.procs = some j) (hr : (s.procs r).expectedRuntime ≠ 0) :
    stcfKey ((s.kfork r .ok).procs j) = 0 := by
  obtain ⟨he, ht, -, -⟩ := Kernel.kfork_child (r := r) hj
  rw [stcfKey, if_neg (by rw [he]; exact hr), ht]

/-- In `stcfForked` the second child, which inherited hint 1 and has never run, has `time_left` 0
and so the key 0, ahead of every process that has a hint. -/
theorem kfork_child_time_left_zero :
    Reachable .stcf stcfForked ∧ (stcfForked.procs 2).state = .runnable ∧
    (stcfForked.procs 2).expectedRuntime = 1 ∧ (stcfForked.procs 2).timeLeft = 0 ∧
    (stcfForked.procs 2).rtime = 0 ∧ stcfKey (stcfForked.procs 2) = 0 :=
  ⟨reachable_runTo (.boot 0) _, by decide⟩

end Xv6.Sched
