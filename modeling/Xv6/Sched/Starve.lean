import Xv6.Sched.Stcf

/-!
# Xv6.Sched.Starve — what `starvation_clean` reads from the clock

`starvation_clean` reads `getTime()` once, on entry, and then compares it, as `time - p->etime` on
`uint64`, with the `etime` of every RUNNABLE slot it locks (`starvStep_lowers`). A process whose
`etime` is stamped after that read wraps the difference around to nearly `2^64`, which passes the
`starv_cut` test (`starvCut_lt_of_stamped_later`).

On one CPU nothing stamps an `etime` while the scan runs: every `etime` is at most the time it read,
and that time is at most the clock (`starvOk_of_reachable`), so a process is lowered only after a
wait of more than `starv_cut` by the clock at the check (`starvation_clean_sound_uni`). On two
CPUs the other one can run a process and account for it in between, and `starvation_clean` then
boosts a process that has just left the CPU (`starvation_clean_boosts_fresh_process`).
-/

namespace Xv6.Sched

variable {n : Nat} {pol : SchedPolicy} {s s' : Kernel n}

/-! ## The test of `starvation_clean` -/

/-- `starvation_clean` lowers the level of the slot it is at only, when the slot is RUNNABLE and
the `time` it read on entry is more than `starv_cut` past the slot's `etime`. -/
theorem starvStep_lowers {c : Fin n} {i : Nat} {time : UInt64} (h : starvStep s c i time = some s')
    {j : Fin NPROC} (hlow : (s'.procs j).queueLevel < (s.procs j).queueLevel) :
    j.val = i ∧ (s.procs j).state = .runnable ∧ starvCut < time - (s.procs j).etime := by
  rcases starvStep_cases h with ⟨j', hj', hrun, hcut, -, q, -, rfl⟩ | ⟨-, -, -, rfl⟩ | ⟨-, rfl⟩
  · by_cases hjj : j = j'
    · subst hjj
      exact ⟨hj', hrun, hcut⟩
    · simp [Function.update_of_ne hjj] at hlow
  · simp at hlow
  · simp at hlow

/-- An `etime` stamped after the `time` that `starvation_clean` read makes `time - p->etime` wrap
around to `2^64 - (etime - time)`, which passes the test unless the two are more than
`2^64 - starv_cut` apart. -/
theorem starvCut_lt_of_stamped_later {time etime : UInt64} (h : time < etime)
    (hnear : etime.toNat - time.toNat < 2 ^ 64 - starvCut.toNat) : starvCut < time - etime := by
  obtain ⟨hwrap, -⟩ := uint64_sub_wraps h
  rw [UInt64.lt_iff_toNat_lt, hwrap]
  omega

/-! ## `etime` and the clock -/

/-- The code after `swtch` leaves `etime` or stamps it with the time. -/
theorem afterSwtch_etime {k : Ret} {p p' : Proc} {now : UInt64} {pc : SchedPc}
    (h : afterSwtch k p now = some (p', pc)) : p'.etime = p.etime ∨ p'.etime = now := by
  cases k with
  | mlfq =>
    simp only [afterSwtch, Option.map_eq_some_iff, Prod.mk.injEq] at h
    obtain ⟨q, hq, rfl, -⟩ := h
    rw [Proc.demoteMlfq_frame hq]
    exact .inr rfl
  | rr i | fifo | sjf | stcf =>
    cases h
    exact .inl rfl

/-- No `etime` is ahead of the clock. -/
def EtimeOk (s : Kernel n) : Prop :=
  ∀ j, (s.procs j).etime ≤ s.now

theorem etimeOk_boot (t : UInt64) : EtimeOk (Kernel.boot t : Kernel n) := by
  intro j
  by_cases hj : j = initproc
  · simp [Kernel.boot, hj, initProc, Proc.allocInit, Proc.allocStart]
  · simp [Kernel.boot, hj, Proc.unused]

/-- A step keeps a slot's `etime` or stamps it with the clock, or clears it. -/
theorem SlotStep.etime_le {c : Fin n} {a : Act} {j : Fin NPROC} (h : SlotStep s s' c a j)
    (hle : (s.procs j).etime ≤ s.now) (hnow : s.now ≤ s'.now) : (s'.procs j).etime ≤ s'.now := by
  have hold : (s.procs j).etime ≤ s'.now := UInt64.le_trans hle hnow
  cases h with
  | same h | age q _ _ _ h | relink par st _ _ h | kill pid _ h | setexpected arg _ _ h
  | setstcfvals arg _ _ h =>
    rw [h]
    exact hold
  | dispatch _ h =>
    rw [h, Proc.dispatch_frame]
    exact hold
  | dispatchMlfq _ h =>
    rw [h, Proc.dispatchMlfq_frame]
    exact hold
  | yield k pc _ h | sleep k pc chan _ h =>
    rcases afterSwtch_etime h with he | he <;> rw [he]
    · exact hold
    · exact hnow
  | exit k pc par status _ h =>
    -- `kexit` stamps `etime` itself before the scheduler's accounting
    rcases afterSwtch_etime h with he | he <;> rw [he]
    · simpa [Proc.kexitAccount] using hnow
    · exact hnow
  | reap r _ _ _ h _ _ | forkFail q _ _ h =>
    rw [h]
    simp [Proc.freeproc]
  | fork r _ _ _ h _ =>
    rw [h]
    simp [Proc.allocInit]
  | tick _ h =>
    rw [h]
    unfold Proc.tick
    split
    · exact hold
    · exact hold

theorem EtimeOk.step {c : Fin n} {a : Act} (h : EtimeOk s) (hs : step pol s c a = some s') :
    EtimeOk s' :=
  fun j => (step_slotStep hs j).etime_le (h j) (step_now_le hs)

/-! ## One CPU -/

theorem Ret.next_ne_starv (k : Ret) (i : Nat) (time : UInt64) : k.next ≠ .starv i time := by
  cases k <;> simp [Ret.next]

/-- A scheduler step that leaves the thread inside `starvation_clean` enters it, reading the
clock, or goes on with the `time` it read; neither writes an `etime`. -/
theorem schedStep_starv {c : Fin n} {pc : SchedPc} (h : schedStep pol s c pc = some s') {i' : Nat}
    {time' : UInt64} (hpc : (s'.cpus c).pc = .starv i' time') :
    (∀ j, (s'.procs j).etime = (s.procs j).etime) ∧ (time' = s.now ∨ ∃ i, pc = .starv i time') := by
  cases pc with
  | top =>
    cases h
    refine ⟨fun _ => rfl, .inl ?_⟩
    simp only [Kernel.setPc_cpus, Function.update_self] at hpc
    cases pol <;> simp [entry] at hpc
    exact hpc.2.symm
  | start =>
    cases h
    simp only [Kernel.setPc_cpus, Function.update_self, SchedPc.starv.injEq] at hpc
    exact ⟨fun _ => rfl, .inl hpc.2.symm⟩
  | run k | leak j => cases h
  | rr i =>
    rcases rrStep_cases h with ⟨j, -, -, -, rfl⟩ | ⟨-, -, -, -, rfl⟩ | ⟨-, rfl⟩ <;> simp at hpc
  | fifo i sel =>
    rcases fifoStep_cases h with ⟨j, -, rfl⟩ | ⟨-, j, -, -, -, rfl⟩ | ⟨-, -, rfl⟩ <;> simp at hpc
  | sjf i b | stcf i b =>
    rcases shortestStep_cases h with ⟨j, -, -, rfl⟩ | ⟨-, -, rfl⟩ | ⟨-, -, -, rfl⟩ |
      ⟨-, -, -, rfl⟩ | ⟨-, j, -, -, -, -, rfl⟩ <;> simp at hpc
  | mlfq prty i minP =>
    rcases mlfqStep_cases h with ⟨j, -, -, rfl⟩ | ⟨-, j, -, -, rfl⟩ | ⟨-, j, -, -, rfl⟩ |
      ⟨-, -, -, rfl⟩ | ⟨-, -, -, rfl⟩ <;> simp at hpc
  | starv i time =>
    rcases starvStep_cases h with ⟨j, -, -, -, -, q, -, rfl⟩ | ⟨-, -, -, rfl⟩ | ⟨-, rfl⟩
    · -- aging writes the level and the slice of slot `j`
      simp only [Kernel.setPc_cpus, Function.update_self, SchedPc.starv.injEq] at hpc
      refine ⟨fun j' => ?_, .inr ⟨i, by rw [hpc.2]⟩⟩
      by_cases hj : j' = j
      · subst hj
        simp
      · simp [Function.update_of_ne hj]
    · simp only [Kernel.setPc_cpus, Function.update_self, SchedPc.starv.injEq] at hpc
      exact ⟨fun _ => rfl, .inr ⟨i, by rw [hpc.2]⟩⟩
    · simp at hpc

/-- On one CPU, while `starvation_clean` scans, the `time` it read is at most the clock and no
`etime` is ahead of it. -/
def StarvOk (s : Kernel 1) : Prop :=
  ∀ i time, (s.cpus cpu0).pc = .starv i time → time ≤ s.now ∧ ∀ j, (s.procs j).etime ≤ time

theorem StarvOk.step {s s' : Kernel 1} {c : Fin 1} {a : Act} (hE : EtimeOk s) (h : StarvOk s)
    (hs : step pol s c a = some s') : StarvOk s' := by
  obtain rfl := fin_one_eq_cpu0 c
  intro i' time' hpc
  have hnow := step_now_le hs
  rcases step_cases hs with ⟨-, hsched⟩ | ⟨chan, -, rfl⟩ | ⟨t, ht, rfl⟩ | ⟨r, k, -, hk, hproc⟩
  · obtain ⟨hetime, htime | ⟨i, hi⟩⟩ := schedStep_starv hsched hpc
    · -- entering reads the clock, which no `etime` is ahead of
      subst htime
      exact ⟨hnow, fun j => by rw [hetime j]; exact hE j⟩
    · obtain ⟨hle, hall⟩ := h i time' hi
      exact ⟨UInt64.le_trans hle hnow, fun j => by rw [hetime j]; exact hall j⟩
  · -- a wakeup writes states only
    obtain ⟨hle, hall⟩ := h i' time' hpc
    refine ⟨hle, fun j => ?_⟩
    rcases wakeupProcs_cases (s.cpus cpu0).proc chan s.procs j with hw | ⟨-, -, -, hw⟩ <;>
      simp only [hw]
    · exact hall j
    · exact hall j
  · obtain ⟨hle, hall⟩ := h i' time' hpc
    exact ⟨UInt64.le_trans hle ht, hall⟩
  · -- a process runs: the thread is parked in `swtch`, or back after it, outside the scan
    rcases (procStep_cpus hproc).2 with hcpus | hcpus <;> rw [hcpus] at hpc
    · rw [hk] at hpc
      cases hpc
    · simp only [Function.update_self] at hpc
      exact absurd hpc (Ret.next_ne_starv k i' time')

theorem starvOk_of_reachable {s : Kernel 1} (h : Reachable pol s) : EtimeOk s ∧ StarvOk s := by
  induction h with
  | boot t => exact ⟨etimeOk_boot t, fun i time hpc => by simp [Kernel.boot] at hpc⟩
  | step _ hstep ih =>
    obtain ⟨c, a, hs⟩ := hstep
    exact ⟨ih.1.step hs, ih.2.step ih.1 hs⟩

/-- On one CPU, in every reachable state, `starvation_clean` lowers the level of a process only
if it has waited more than `starv_cut` by the clock at the check. -/
theorem starvation_clean_sound_uni {s s' : Kernel 1} (h : Reachable .mlfq s) {i : Nat}
    {time : UInt64} (hpc : (s.cpus cpu0).pc = .starv i time)
    (hs : step .mlfq s cpu0 .sched = some s') {j : Fin NPROC}
    (hlow : (s'.procs j).queueLevel < (s.procs j).queueLevel) :
    starvCut < s.now - (s.procs j).etime := by
  obtain ⟨htime, hetime⟩ := (starvOk_of_reachable h).2 i time hpc
  have hsched : starvStep s cpu0 i time = some s' := by
    simp only [step] at hs
    split at hs
    · rw [hpc] at hs
      exact hs
    · cases hs
  obtain ⟨-, -, hcut⟩ := starvStep_lowers hsched hlow
  -- `etime ≤ time ≤ now`: neither difference wraps, and the clock since the read only adds
  rw [UInt64.lt_iff_toNat_lt, UInt64.toNat_sub_of_le _ _ (hetime j)] at hcut
  rw [UInt64.lt_iff_toNat_lt, UInt64.toNat_sub_of_le _ _ (UInt64.le_trans (hetime j) htime)]
  rw [UInt64.le_iff_toNat_le] at htime
  omega

/-! ## Two CPUs -/

/-- Under MLFQ on two CPUs: CPU 0 enters `schedule_mlfq`, and its `starvation_clean` reads the
time 0. CPU 1 runs a whole iteration and dispatches init, which runs until time 5000, uses up its
level-0 slice and yields: the accounting stamps `etime = 5000` and moves init to level 1. -/
def starveRace : Kernel 2 :=
  runTo .mlfq (Kernel.boot 0)
    ((0, Act.sched) :: List.replicate 131 (1, Act.sched) ++ [(1, Act.clock 5000), (1, Act.yield)])

/-- CPU 0's scan then reaches init, which left its CPU at the current time, and moves it back to
level 0: `0 - 5000` wraps around past `starv_cut`. -/
theorem starvation_clean_boosts_fresh_process :
    Reachable .mlfq starveRace ∧ (starveRace.cpus 0).pc = .starv 0 0 ∧
    (starveRace.procs 0).state = .runnable ∧ (starveRace.procs 0).queueLevel = 1 ∧
    starveRace.now - (starveRace.procs 0).etime = 0 ∧
    (step .mlfq starveRace 0 .sched).map (fun s => (s.procs 0).queueLevel) = some 0 :=
  ⟨reachable_runTo (.boot 0) _, by decide⟩

end Xv6.Sched
