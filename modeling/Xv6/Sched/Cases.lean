import Xv6.Sched.Step

/-!
# Xv6.Sched.Cases — what a step can do

The inversion lemmas every invariant of the kernel is proved from, so that no later proof unfolds a
scheduler loop or an operation again. A step is a scheduler step, a wakeup, a tick of the clock, or
an operation of a running process (`step_cases`). A scheduler step moves the program counter, ages
one RUNNABLE slot in `starvation_clean`, or dispatches a RUNNABLE slot (`schedStep_cases`). The code
after `swtch` touches only the accounting fields (`afterSwtch_frame`).
-/

namespace Xv6.Sched

variable {n : Nat} {pol : SchedPolicy} {s s' : Kernel n} {c : Fin n}

/-! ## Records -/

@[simp] theorem Proc.resume_state (p : Proc) : p.resume.state = p.state := by
  unfold Proc.resume; split <;> rfl

/-- Resuming a process changes at most its channel. -/
theorem Proc.resume_eq (p : Proc) : p.resume = { p with chan := p.resume.chan } := by
  unfold Proc.resume; split <;> rfl

@[simp] theorem Proc.dispatch_state (p : Proc) (now : UInt64) : (p.dispatch now).state = .running :=
  by simp [Proc.dispatch]

@[simp] theorem Proc.dispatchMlfq_state (p : Proc) (now : UInt64) :
    (p.dispatchMlfq now).state = .running := by
  simp [Proc.dispatchMlfq]

/-- A dispatch writes the state, `ltime`, `stime` and, for a process resumed inside `sleep`, the
channel. -/
theorem Proc.dispatch_frame (p : Proc) (now : UInt64) :
    p.dispatch now = { p with state := .running, ltime := now, stime := (p.dispatch now).stime,
                              chan := (p.dispatch now).chan } := by
  unfold Proc.dispatch
  rw [Proc.resume_eq]

theorem Proc.dispatchMlfq_frame (p : Proc) (now : UInt64) :
    p.dispatchMlfq now = { p with state := .running, ltime := now,
                                  stime := (p.dispatchMlfq now).stime,
                                  chan := (p.dispatchMlfq now).chan } := by
  unfold Proc.dispatchMlfq
  rw [Proc.resume_eq]

/-- `schedule_mlfq`'s demotion touches the level, the priority, the slice and `demote` only. -/
theorem Proc.demoteMlfq_frame {p p' : Proc} (h : p.demoteMlfq = some p') :
    p' = { p with priority := p'.priority, queueLevel := p'.queueLevel,
                  timeSlice := p'.timeSlice, demote := p'.demote } := by
  unfold Proc.demoteMlfq at h
  split at h
  · obtain ⟨q, _, rfl⟩ := Option.map_eq_some_iff.mp h
    rfl
  · cases h
    rfl

/-- The code after `swtch` touches the accounting fields only: `rtime`, `time_left`, `etime`, the
MLFQ level, priority, slice and `demote`. -/
theorem afterSwtch_frame {k : Ret} {p p' : Proc} {now : UInt64} {pc : SchedPc}
    (h : afterSwtch k p now = some (p', pc)) :
    p' = { p with rtime := p'.rtime, timeLeft := p'.timeLeft, etime := p'.etime,
                  priority := p'.priority, queueLevel := p'.queueLevel,
                  timeSlice := p'.timeSlice, demote := p'.demote } := by
  cases k with
  | rr i => cases h; rfl
  | fifo => cases h; rfl
  | sjf => cases h; rfl
  | stcf => cases h; rfl
  | mlfq =>
    simp only [afterSwtch, Option.map_eq_some_iff, Prod.mk.injEq] at h
    obtain ⟨q, hq, rfl, -⟩ := h
    rw [Proc.demoteMlfq_frame hq]

theorem afterSwtch_state {k : Ret} {p p' : Proc} {now : UInt64} {pc : SchedPc}
    (h : afterSwtch k p now = some (p', pc)) : p'.state = p.state := by
  rw [afterSwtch_frame h]

/-- Where the scheduler thread goes on after the `swtch` it was parked in at `k`. -/
theorem afterSwtch_pc {k : Ret} {p p' : Proc} {now : UInt64} {pc : SchedPc}
    (h : afterSwtch k p now = some (p', pc)) : pc = k.next := by
  cases k with
  | mlfq =>
    simp only [afterSwtch, Option.map_eq_some_iff, Prod.mk.injEq] at h
    obtain ⟨q, -, -, rfl⟩ := h
    rfl
  | _ => cases h; rfl

/-! ## Process operations -/

/-- `wakeup` leaves a slot alone or turns a process sleeping on the channel RUNNABLE, and it writes
no other field. -/
theorem wakeupProcs_cases (me : Option (Fin NPROC)) (chan : Chan) (ps : Fin NPROC → Proc)
    (j : Fin NPROC) :
    wakeupProcs me chan ps j = ps j ∨
      ((ps j).state = .sleeping ∧ (ps j).chan = chan ∧ me ≠ some j ∧
        wakeupProcs me chan ps j = { ps j with state := .runnable }) := by
  unfold wakeupProcs
  split
  · rename_i h
    exact .inr ⟨h.2.1, h.2.2, h.1, rfl⟩
  · exact .inl rfl

/-- `reparent` moves the children of `p` to `initproc` and may wake processes sleeping on
`initproc`; it writes no field but `parent` and `state`. -/
theorem reparent_cases (p : Fin NPROC) (ps : Fin NPROC → Proc) (j : Fin NPROC) :
    ∃ st, reparent p ps j =
      { ps j with parent := if (ps j).parent = some p then some initproc else (ps j).parent,
                  state := st } ∧
      (st = (ps j).state ∨ ((ps j).state = .sleeping ∧ st = .runnable)) := by
  unfold reparent
  by_cases hkid : ∃ j, (ps j).parent = some p
  · rw [if_pos hkid]
    rcases wakeupProcs_cases (some p) (.proc initproc) _ j with h | ⟨hs, -, -, h⟩
    · refine ⟨(ps j).state, ?_, .inl rfl⟩
      rw [h]
      split <;> rfl
    · refine ⟨.runnable, ?_, .inr ⟨?_, rfl⟩⟩
      · rw [h]
        split <;> rfl
      · simpa [apply_ite Proc.state] using hs
  · rw [if_neg hkid]
    refine ⟨(ps j).state, ?_, .inl rfl⟩
    split <;> rfl

/-- The slot `allocproc`'s scan stops at is `UNUSED`. -/
theorem firstUnused_state {ps : Fin NPROC → Proc} {j : Fin NPROC} (h : firstUnused ps = some j) :
    (ps j).state = .unused := by
  simpa using List.find?_some h

/-- The slot `kwait` reaps is a ZOMBIE child of the caller. -/
theorem firstZombieChild_spec {ps : Fin NPROC → Proc} {r z : Fin NPROC}
    (h : firstZombieChild ps r = some z) : (ps z).parent = some r ∧ (ps z).state = .zombie := by
  simpa using List.find?_some h

/-- The slot `kkill` marks carries the pid it was given. -/
theorem firstWithPid_pid {ps : Fin NPROC → Proc} {pid : Int} {j : Fin NPROC}
    (h : firstWithPid ps pid = some j) : (ps j).pid = pid := by
  simpa using List.find?_some h

/-- `kfork` changes nothing, or writes the first UNUSED slot: with a record `freeproc` has cleared
when an allocation fails, or with the RUNNABLE child of `r`. -/
theorem kfork_cases (s : Kernel n) (r : Fin NPROC) (out : ForkOut) :
    s.kfork r out = s ∨
    ∃ j, firstUnused s.procs = some j ∧ (s.procs j).state = .unused ∧
      ((∃ q : Proc, s.kfork r out = { s with nextpid := s.nextpid + 1 }.setProc j q.freeproc) ∨
       (out = .ok ∧ s.kfork r out = { s with nextpid := s.nextpid + 1 }.setProc j
          { ((s.procs j).allocStart s.nextpid).allocInit s.now with
            expectedRuntime := (s.procs r).expectedRuntime, parent := some r,
            state := .runnable })) := by
  unfold Kernel.kfork
  split
  · exact .inl rfl
  · rename_i j hj
    refine .inr ⟨j, hj, firstUnused_state hj, ?_⟩
    cases out with
    | allocFail => exact .inl ⟨_, rfl⟩
    | copyFail => exact .inl ⟨_, rfl⟩
    | ok => exact .inr ⟨rfl, rfl⟩

/-- `kkill` changes nothing, or marks the slot found killed and wakes it if it sleeps. -/
theorem kkill_cases (s : Kernel n) (pid : Int32) :
    s.kkill pid = s ∨
    ∃ j, (s.procs j).pid = pid.toInt ∧
      s.kkill pid = s.setProc j
        { (s.procs j) with
          killed := 1, state := if (s.procs j).state = .sleeping then .runnable else (s.procs j).state } := by
  unfold Kernel.kkill
  split
  · exact .inl rfl
  · rename_i j hj
    exact .inr ⟨j, firstWithPid_pid hj, rfl⟩

/-! ## Steps -/

theorem giveUp_eq {r : Fin NPROC} {k : Ret} {p : Proc} (h : s.giveUp c r k p = some s') :
    ∃ p' pc, afterSwtch k p s.now = some (p', pc) ∧ s' = (s.setProc r p').setCpu c ⟨none, pc⟩ := by
  simp only [Kernel.giveUp, Option.map_eq_some_iff] at h
  obtain ⟨⟨p', pc⟩, hx, rfl⟩ := h
  exact ⟨p', pc, hx, rfl⟩

/-- `kwait` reaps a ZOMBIE child, or sleeps on its own slot, or returns at once. -/
theorem kwait_cases {r : Fin NPROC} {k : Ret} (h : s.kwait c r k = some s') :
    (∃ z, firstZombieChild s.procs r = some z ∧ (s.procs z).parent = some r ∧
      (s.procs z).state = .zombie ∧ s' = s.setProc z (s.procs z).freeproc) ∨
    (HasKids s.procs r ∧ (s.procs r).killed = 0 ∧
      s.giveUp c r k { (s.procs r) with chan := .proc r, state := .sleeping, context := .sleep } =
        some s') ∨
    s' = s := by
  unfold Kernel.kwait at h
  split at h
  · rename_i z hz
    obtain ⟨hpar, hzombie⟩ := firstZombieChild_spec hz
    exact .inl ⟨z, hz, hpar, hzombie, (Option.some.inj h).symm⟩
  · split at h
    · rename_i hcond
      exact .inr (.inl ⟨hcond.1, hcond.2, h⟩)
    · exact .inr (.inr (Option.some.inj h).symm)

/-- `kexit` by a process other than `initproc`: reparent, wake the parent, give the CPU back. -/
theorem kexit_eq {r : Fin NPROC} {k : Ret} {status : Int32} (h : s.kexit c r k status = some s') :
    r ≠ initproc ∧
    { s with procs := wakeupProcs (some r) (parentChan (reparent r s.procs r)) (reparent r s.procs) }.giveUp
      c r k { (wakeupProcs (some r) (parentChan (reparent r s.procs r)) (reparent r s.procs) r).kexitAccount
        s.now status.toInt with context := .kexit } = some s' := by
  unfold Kernel.kexit at h
  split at h
  · cases h
  · exact ⟨‹_›, h⟩

/-- An operation of a running process keeps the clock, and it leaves the CPUs alone or ends in
`sched()`, after which CPU `c` runs nothing and its scheduler thread goes on after its `swtch`. -/
theorem procStep_cpus {r : Fin NPROC} {k : Ret} {a : Act} (h : procStep s c r k a = some s') :
      s'.now = s.now ∧ (s'.cpus = s.cpus ∨ s'.cpus = Function.update s.cpus c ⟨none, k.next⟩) := by
  -- the four operations that end in `sched()`
  have giveUp_cpus : ∀ {s₁ : Kernel n} {p : Proc}, s₁.cpus = s.cpus → s₁.now = s.now →
      s₁.giveUp c r k p = some s' →
        s'.now = s.now ∧ (s'.cpus = s.cpus ∨ s'.cpus = Function.update s.cpus c ⟨none, k.next⟩) := by
    intro s₁ p hcpus hnow hg
    obtain ⟨p', pc, hx, rfl⟩ := giveUp_eq hg
    obtain rfl := afterSwtch_pc hx
    exact ⟨hnow, .inr (by rw [Kernel.setCpu_cpus, Kernel.setProc_cpus, hcpus])⟩
  cases a with
  | yield => exact giveUp_cpus rfl rfl h
  | sleep chan => exact giveUp_cpus rfl rfl h
  | kexit status => refine giveUp_cpus ?_ ?_ (kexit_eq h).2 <;> rfl
  | kwait =>
    rcases kwait_cases h with ⟨z, -, -, -, rfl⟩ | ⟨-, -, h⟩ | rfl
    · exact ⟨rfl, .inl rfl⟩
    · exact giveUp_cpus rfl rfl h
    · exact ⟨rfl, .inl rfl⟩
  | kfork out =>
    cases h
    exact ⟨by simp, .inl (by simp)⟩
  | kkill pid =>
    cases h
    exact ⟨by simp, .inl (by simp)⟩
  | setexpected arg => cases h; exact ⟨rfl, .inl rfl⟩
  | setstcfvals arg => cases h; exact ⟨rfl, .inl rfl⟩
  | tick => cases h; exact ⟨rfl, .inl rfl⟩
  | sched => cases h
  | wakeup _ => cases h
  | clock _ => cases h

/-- A step is a scheduler step on a CPU that runs nothing, a wakeup, a tick of the clock, or an
operation of the process a CPU runs. -/
theorem step_cases {a : Act} (h : step pol s c a = some s') :
    ((s.cpus c).proc = none ∧ schedStep pol s c (s.cpus c).pc = some s') ∨
    (∃ chan, ((s.cpus c).proc ≠ none ∨ (s.cpus c).pc = .top) ∧
      s' = { s with procs := wakeupProcs (s.cpus c).proc chan s.procs }) ∨
    (∃ t, s.now ≤ t ∧ s' = { s with now := t }) ∨
    (∃ r k, (s.cpus c).proc = some r ∧ (s.cpus c).pc = .run k ∧ procStep s c r k a = some s') := by
  cases a with
  | sched =>
    simp only [step] at h
    split at h
    · exact .inl ⟨‹_›, h⟩
    · cases h
  | wakeup chan =>
    simp only [step] at h
    split at h
    · exact .inr (.inl ⟨chan, ‹_›, (Option.some.inj h).symm⟩)
    · cases h
  | clock t =>
    simp only [step] at h
    split at h
    · exact .inr (.inr (.inl ⟨t, ‹_›, (Option.some.inj h).symm⟩))
    · cases h
  | _ =>
    simp only [step] at h
    split at h
    · exact .inr (.inr (.inr ⟨_, _, ‹_›, ‹_›, h⟩))
    · cases h

/-! ## The scans -/

/-- `schedule_rr` at slot `i`: dispatch it, step over it, or return after the last slot. -/
theorem rrStep_cases {i : Nat} (h : rrStep s c i = some s') :
    (∃ j : Fin NPROC, j.val = i ∧ ¬ s.lockedElsewhere c j ∧ (s.procs j).state = .runnable ∧
      s' = s.dispatch c j ((s.procs j).dispatch s.now) (.rr i)) ∨
    (∃ j : Fin NPROC, j.val = i ∧ ¬ s.lockedElsewhere c j ∧ (s.procs j).state ≠ .runnable ∧
      s' = s.setPc c (.rr (i + 1))) ∨
    (NPROC ≤ i ∧ s' = s.setPc c .top) := by
  simp only [rrStep] at h
  split at h
  · rename_i hi
    split at h
    · cases h
    · split at h
      · exact .inl ⟨⟨i, hi⟩, rfl, ‹_›, ‹_›, (Option.some.inj h).symm⟩
      · exact .inr (.inl ⟨⟨i, hi⟩, rfl, ‹_›, ‹_›, (Option.some.inj h).symm⟩)
  · exact .inr (.inr ⟨not_lt.mp ‹_›, (Option.some.inj h).symm⟩)

/-- `schedule_fifo`: one read of the scan, or after it the dispatch of `selected` or a return. -/
theorem fifoStep_cases {i : Nat} {sel : Option (Fin NPROC)} (h : fifoStep s c i sel = some s') :
    (∃ j : Fin NPROC, j.val = i ∧ s' = s.setPc c (.fifo (i + 1)
      (if (s.procs j).state = .runnable ∧ sel.all (fun k => (s.procs j).ctime < (s.procs k).ctime)
        then some j else sel))) ∨
    (NPROC ≤ i ∧ ∃ j, sel = some j ∧ ¬ s.lockedElsewhere c j ∧ (s.procs j).state = .runnable ∧
      s' = s.dispatch c j ((s.procs j).dispatch s.now) .fifo) ∨
    (NPROC ≤ i ∧ (∀ j, sel = some j → (s.procs j).state ≠ .runnable) ∧ s' = s.setPc c .top) := by
  simp only [fifoStep] at h
  split at h
  · exact .inl ⟨⟨i, ‹_›⟩, rfl, (Option.some.inj h).symm⟩
  · have hi : NPROC ≤ i := not_lt.mp ‹_›
    split at h
    · exact .inr (.inr ⟨hi, (fun _ h => by cases h), (Option.some.inj h).symm⟩)
    · rename_i j
      split at h
      · cases h
      · split at h
        · exact .inr (.inl ⟨hi, j, rfl, ‹_›, ‹_›, (Option.some.inj h).symm⟩)
        · rename_i hrun
          refine .inr (.inr ⟨hi, ?_, (Option.some.inj h).symm⟩)
          rintro j' ⟨⟩
          exact hrun

/-- The scans of `schedule_sjf` and `schedule_stcf`: one slot of the scan, or after it a return, a
round of `schedule_rr`, or the dispatch of `best`. -/
theorem shortestStep_cases {key : Proc → UInt64} {mk : Nat → Best → SchedPc} {k : Ret} {i : Nat}
    {b : Best} (h : shortestStep key mk k s c i b = some s') :
    (∃ j : Fin NPROC, j.val = i ∧ ¬ s.lockedElsewhere c j ∧ s' = s.setPc c (mk (i + 1)
      (if (s.procs j).state = .runnable then b.consider j (key (s.procs j)) (s.procs j) else b))) ∨
    (NPROC ≤ i ∧ b.best = none ∧ s' = s.setPc c .top) ∨
    (NPROC ≤ i ∧ b.best ≠ none ∧ b.key = noHint ∧ s' = s.setPc c (.rr 0)) ∨
    (NPROC ≤ i ∧ b.best ≠ none ∧ b.key ≠ noHint ∧ s' = s.setPc c .top) ∨
    (NPROC ≤ i ∧ ∃ j, b.best = some j ∧ b.key ≠ noHint ∧ ¬ s.lockedElsewhere c j ∧
      (s.procs j).state = .runnable ∧ s' = s.dispatch c j ((s.procs j).dispatch s.now) k) := by
  simp only [shortestStep] at h
  split at h
  · split at h
    · cases h
    · exact .inl ⟨⟨i, ‹_›⟩, rfl, ‹_›, (Option.some.inj h).symm⟩
  · have hi : NPROC ≤ i := not_lt.mp ‹_›
    split at h
    · exact .inr (.inl ⟨hi, ‹_›, (Option.some.inj h).symm⟩)
    · rename_i j hb
      have hne : b.best ≠ none := by simp [hb]
      split at h
      · exact .inr (.inr (.inl ⟨hi, hne, ‹_›, (Option.some.inj h).symm⟩))
      · split at h
        · cases h
        · split at h
          · exact .inr (.inr (.inr (.inl ⟨hi, hne, ‹_›, (Option.some.inj h).symm⟩)))
          · exact .inr (.inr (.inr (.inr
              ⟨hi, j, hb, ‹_›, ‹_›, not_not.mp ‹_›, (Option.some.inj h).symm⟩)))

/-- `starvation_clean` at slot `i`: age the slot, step over it, or go on to the level-0 scan. -/
theorem starvStep_cases {i : Nat} {time : UInt64} (h : starvStep s c i time = some s') :
    (∃ j : Fin NPROC, j.val = i ∧ (s.procs j).state = .runnable ∧
      time - (s.procs j).etime > starvCut ∧ 0 < (s.procs j).queueLevel ∧
      ∃ q, quantumAt ((s.procs j).queueLevel - 1) = some q ∧
      s' = (s.setProc j
        { (s.procs j) with queueLevel := (s.procs j).queueLevel - 1, timeSlice := q }).setPc c
          (.starv (i + 1) time)) ∨
    (∃ j : Fin NPROC, j.val = i ∧
      ¬ ((s.procs j).state = .runnable ∧ time - (s.procs j).etime > starvCut ∧
        (s.procs j).queueLevel > 0) ∧
      s' = s.setPc c (.starv (i + 1) time)) ∨
    (NPROC ≤ i ∧ s' = s.setPc c (.mlfq 0 0 none)) := by
  simp only [starvStep] at h
  split at h
  · split at h
    · cases h
    · split at h
      · rename_i hcond
        obtain ⟨q, hq, rfl⟩ := Option.map_eq_some_iff.mp h
        exact .inl ⟨⟨i, ‹_›⟩, rfl, hcond.1, hcond.2.1, hcond.2.2, q, hq, rfl⟩
      · exact .inr (.inl ⟨⟨i, ‹_›⟩, rfl, ‹_›, (Option.some.inj h).symm⟩)
  · exact .inr (.inr ⟨not_lt.mp ‹_›, (Option.some.inj h).symm⟩)

/-- The level-`prty` scan of `schedule_mlfq`: one slot, or after it the dispatch of `min_p`, the
`break` that keeps its lock, the next level, or a return. -/
theorem mlfqStep_cases {prty i : Nat} {minP : Option (Fin NPROC)}
    (h : mlfqStep s c prty i minP = some s') :
    (∃ j : Fin NPROC, j.val = i ∧ ¬ s.lockedElsewhere c j ∧ s' = s.setPc c (.mlfq prty (i + 1)
      (if (s.procs j).queueLevel = prty ∧ (s.procs j).state = .runnable ∧
          minP.all (fun m => (s.procs j).ltime < (s.procs m).ltime) then some j else minP))) ∨
    (NPROC ≤ i ∧ ∃ j, minP = some j ∧ (s.procs j).state ≠ .runnable ∧ s' = s.setPc c (.leak j)) ∨
    (NPROC ≤ i ∧ ∃ j, minP = some j ∧ (s.procs j).state = .runnable ∧
      s' = s.dispatch c j ((s.procs j).dispatchMlfq s.now) .mlfq) ∨
    (NPROC ≤ i ∧ minP = none ∧ prty < 2 ∧ s' = s.setPc c (.mlfq (prty + 1) 0 none)) ∨
    (NPROC ≤ i ∧ minP = none ∧ 2 ≤ prty ∧ s' = s.setPc c .top) := by
  simp only [mlfqStep] at h
  split at h
  · split at h
    · cases h
    · refine .inl ⟨⟨i, ‹_›⟩, rfl, ‹_›, ?_⟩
      split at h
      · rw [if_pos ‹_›]
        exact (Option.some.inj h).symm
      · rw [if_neg ‹_›]
        exact (Option.some.inj h).symm
  · have hi : NPROC ≤ i := not_lt.mp ‹_›
    split at h
    · split at h
      · exact .inr (.inl ⟨hi, _, rfl, ‹_›, (Option.some.inj h).symm⟩)
      · exact .inr (.inr (.inl ⟨hi, _, rfl, not_not.mp ‹_›, (Option.some.inj h).symm⟩))
    · split at h
      · exact .inr (.inr (.inr (.inl ⟨hi, rfl, ‹_›, (Option.some.inj h).symm⟩)))
      · exact .inr (.inr (.inr (.inr ⟨hi, rfl, not_lt.mp ‹_›, (Option.some.inj h).symm⟩)))

/-- What one scheduler step does: move the program counter, age one RUNNABLE slot in
`starvation_clean`, or dispatch a RUNNABLE slot. -/
theorem schedStep_cases {pc : SchedPc} (h : schedStep pol s c pc = some s') :
    (∃ pc', s' = s.setPc c pc') ∨
    (∃ j q pc', (s.procs j).state = .runnable ∧ 0 < (s.procs j).queueLevel ∧
      quantumAt ((s.procs j).queueLevel - 1) = some q ∧
      s' = (s.setProc j
        { (s.procs j) with queueLevel := (s.procs j).queueLevel - 1, timeSlice := q }).setPc c pc') ∨
    (∃ j k, (s.procs j).state = .runnable ∧
      (s' = s.dispatch c j ((s.procs j).dispatch s.now) k ∨
        s' = s.dispatch c j ((s.procs j).dispatchMlfq s.now) k)) := by
  cases pc with
  | top => exact .inl ⟨_, (Option.some.inj h).symm⟩
  | start => exact .inl ⟨_, (Option.some.inj h).symm⟩
  | run k => cases h
  | leak j => cases h
  | rr i =>
    rcases rrStep_cases h with ⟨j, -, -, hrun, rfl⟩ | ⟨-, -, -, -, rfl⟩ | ⟨-, rfl⟩
    · exact .inr (.inr ⟨j, _, hrun, .inl rfl⟩)
    · exact .inl ⟨_, rfl⟩
    · exact .inl ⟨_, rfl⟩
  | fifo i sel =>
    rcases fifoStep_cases h with ⟨-, -, rfl⟩ | ⟨-, j, -, -, hrun, rfl⟩ | ⟨-, -, rfl⟩
    · exact .inl ⟨_, rfl⟩
    · exact .inr (.inr ⟨j, _, hrun, .inl rfl⟩)
    · exact .inl ⟨_, rfl⟩
  | sjf i b | stcf i b =>
    rcases shortestStep_cases h with ⟨-, -, -, rfl⟩ | ⟨-, -, rfl⟩ | ⟨-, -, -, rfl⟩ |
      ⟨-, -, -, rfl⟩ | ⟨-, j, -, -, -, hrun, rfl⟩
    · exact .inl ⟨_, rfl⟩
    · exact .inl ⟨_, rfl⟩
    · exact .inl ⟨_, rfl⟩
    · exact .inl ⟨_, rfl⟩
    · exact .inr (.inr ⟨j, _, hrun, .inl rfl⟩)
  | starv i time =>
    rcases starvStep_cases h with ⟨j, -, hrun, -, hql, q, hq, rfl⟩ | ⟨-, -, -, rfl⟩ | ⟨-, rfl⟩
    · exact .inr (.inl ⟨j, q, _, hrun, hql, hq, rfl⟩)
    · exact .inl ⟨_, rfl⟩
    · exact .inl ⟨_, rfl⟩
  | mlfq prty i minP =>
    rcases mlfqStep_cases h with ⟨-, -, -, rfl⟩ | ⟨-, -, -, -, rfl⟩ | ⟨-, j, -, hrun, rfl⟩ |
      ⟨-, -, -, rfl⟩ | ⟨-, -, -, rfl⟩
    · exact .inl ⟨_, rfl⟩
    · exact .inl ⟨_, rfl⟩
    · exact .inr (.inr ⟨j, _, hrun, .inr rfl⟩)
    · exact .inl ⟨_, rfl⟩
    · exact .inl ⟨_, rfl⟩

/-! ## Frames of a step -/

/-- The clock never runs backwards. -/
theorem step_now_le {a : Act} (h : step pol s c a = some s') : s.now ≤ s'.now := by
  rcases step_cases h with ⟨-, hs⟩ | ⟨chan, -, rfl⟩ | ⟨t, ht, rfl⟩ | ⟨r, k, -, -, hs⟩
  · rcases schedStep_cases hs with ⟨pc', rfl⟩ | ⟨j, q, pc', -, -, -, rfl⟩ | ⟨j, k, -, rfl | rfl⟩ <;>
      simp
  · exact UInt64.le_refl _
  · exact ht
  · rw [(procStep_cpus hs).1]
    exact UInt64.le_refl _

/-- A step of CPU `c` leaves the record of every other CPU as it is. -/
theorem step_cpus_of_ne {a : Act} {c' : Fin n} (h : step pol s c a = some s') (hc : c' ≠ c) :
    s'.cpus c' = s.cpus c' := by
  rcases step_cases h with ⟨-, hs⟩ | ⟨chan, -, rfl⟩ | ⟨t, -, rfl⟩ | ⟨r, k, -, -, hs⟩
  · rcases schedStep_cases hs with ⟨pc', rfl⟩ | ⟨j, q, pc', -, -, -, rfl⟩ | ⟨j, k, -, rfl | rfl⟩ <;>
      simp [Function.update_of_ne hc]
  · rfl
  · rfl
  · rcases (procStep_cpus hs).2 with hcpus | hcpus <;> simp [hcpus, Function.update_of_ne hc]

end Xv6.Sched
