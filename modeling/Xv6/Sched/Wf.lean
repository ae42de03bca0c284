import Xv6.Sched.Exclusive
import Xv6.Sched.Slot

/-!
# Xv6.Sched.Wf — what every reachable state satisfies

The facts the scheduling properties rest on, kept by every step under every policy and on any number
of CPUs: each CPU's record agrees with where its scheduler thread is (`CpuOk`); pids are below
`nextpid` and positive outside UNUSED slots; no creation time is ahead of the clock; every hint fits
in the `int` it was passed as. They are bundled with `Exclusive` in `Wf`.
-/

namespace Xv6.Sched

variable {n : Nat} {pol : SchedPolicy} {s s' : Kernel n}

/-! ## Where a scheduler thread can be -/

/-- The policies whose scheduler runs rounds of `schedule_rr`: RR itself, and SJF and STCF when no
RUNNABLE process has a hint. -/
def SchedPolicy.HasRr (pol : SchedPolicy) : Prop :=
  pol = .rr ∨ pol = .sjf ∨ pol = .stcf

/-- A CPU's record agrees with its scheduler thread: `c->proc` is set exactly while the thread is
parked in `swtch`, a `schedule_rr` round parks at the slot it runs, the scans stay within the
table and the MLFQ levels, and the thread is in the code of the configured policy. -/
def CpuOk (pol : SchedPolicy) : Cpu → Prop
  | ⟨none, .top⟩ => True
  | ⟨none, .rr i⟩ => pol.HasRr ∧ i ≤ NPROC
  | ⟨some r, .run (.rr i)⟩ => pol.HasRr ∧ r.val = i
  | ⟨none, .fifo i _⟩ => pol = .fifo ∧ i ≤ NPROC
  | ⟨some _, .run .fifo⟩ => pol = .fifo
  | ⟨none, .sjf i _⟩ => pol = .sjf ∧ i ≤ NPROC
  | ⟨some _, .run .sjf⟩ => pol = .sjf
  | ⟨none, .stcf i _⟩ => pol = .stcf ∧ i ≤ NPROC
  | ⟨some _, .run .stcf⟩ => pol = .stcf
  | ⟨none, .starv i _⟩ => pol = .mlfq ∧ i ≤ NPROC
  | ⟨none, .mlfq prty i _⟩ => pol = .mlfq ∧ prty ≤ 2 ∧ i ≤ NPROC
  | ⟨none, .start⟩ => pol = .mlfq
  | ⟨some _, .run .mlfq⟩ => pol = .mlfq
  | ⟨none, .leak _⟩ => pol = .mlfq
  | _ => False

theorem cpuOk_entry (pol : SchedPolicy) (t : UInt64) : CpuOk pol ⟨none, entry pol t⟩ := by
  cases pol <;> simp [CpuOk, entry, SchedPolicy.HasRr]

/-- Where the thread goes on after `swtch` is allowed where it was parked. -/
theorem CpuOk.next {r : Fin NPROC} {k : Ret} (h : CpuOk pol ⟨some r, .run k⟩) :
    CpuOk pol ⟨none, k.next⟩ := by
  cases k with
  | rr i =>
    obtain ⟨hrr, rfl⟩ := h
    exact ⟨hrr, r.isLt⟩
  | fifo | sjf | stcf => trivial
  | mlfq => exact h

/-- Outside `swtch` a CPU runs no process. -/
theorem CpuOk.proc_eq_none {x : Cpu} (h : CpuOk pol x) (hx : ∀ k, x.pc ≠ .run k) :
    x.proc = none := by
  obtain ⟨_ | r, pc⟩ := x
  · rfl
  · cases pc with
    | run k => exact absurd rfl (hx k)
    | _ => simp [CpuOk] at h

theorem cpuOk_schedStep {c : Fin n} {pc : SchedPc} (hc : s.cpus c = ⟨none, pc⟩)
    (hok : CpuOk pol ⟨none, pc⟩) (h : schedStep pol s c pc = some s') :
    CpuOk pol (s'.cpus c) := by
  cases pc with
  | top =>
    cases h
    simpa [hc] using cpuOk_entry pol s.now
  | start =>
    cases h
    simpa [hc, CpuOk] using hok
  | run k => cases h
  | leak j => cases h
  | rr i =>
    obtain ⟨hrr, -⟩ := hok
    rcases rrStep_cases h with ⟨j, hj, -, -, rfl⟩ | ⟨j, hj, -, -, rfl⟩ | ⟨-, rfl⟩
    · simpa [CpuOk] using ⟨hrr, hj⟩
    · have := j.isLt
      simp only [Kernel.setPc_cpus, Function.update_self, hc, CpuOk]
      exact ⟨hrr, by omega⟩
    · simp [hc, CpuOk]
  | fifo i sel =>
    obtain ⟨hpol, -⟩ := hok
    rcases fifoStep_cases h with ⟨j, hj, rfl⟩ | ⟨-, j, -, -, -, rfl⟩ | ⟨-, -, rfl⟩
    · have := j.isLt
      simp only [Kernel.setPc_cpus, Function.update_self, hc, CpuOk]
      exact ⟨hpol, by omega⟩
    · simpa [CpuOk] using hpol
    · simp [hc, CpuOk]
  | sjf i b =>
    obtain ⟨hpol, -⟩ := hok
    rcases shortestStep_cases h with ⟨j, hj, -, rfl⟩ | ⟨-, -, rfl⟩ | ⟨-, -, -, rfl⟩ |
      ⟨-, -, -, rfl⟩ | ⟨-, j, -, -, -, -, rfl⟩
    · have := j.isLt
      simp only [Kernel.setPc_cpus, Function.update_self, hc, CpuOk]
      exact ⟨hpol, by omega⟩
    · simp [hc, CpuOk]
    · simp [hc, CpuOk, SchedPolicy.HasRr, hpol]
    · simp [hc, CpuOk]
    · simpa [CpuOk] using hpol
  | stcf i b =>
    obtain ⟨hpol, -⟩ := hok
    rcases shortestStep_cases h with ⟨j, hj, -, rfl⟩ | ⟨-, -, rfl⟩ | ⟨-, -, -, rfl⟩ |
      ⟨-, -, -, rfl⟩ | ⟨-, j, -, -, -, -, rfl⟩
    · have := j.isLt
      simp only [Kernel.setPc_cpus, Function.update_self, hc, CpuOk]
      exact ⟨hpol, by omega⟩
    · simp [hc, CpuOk]
    · simp [hc, CpuOk, SchedPolicy.HasRr, hpol]
    · simp [hc, CpuOk]
    · simpa [CpuOk] using hpol
  | starv i time =>
    obtain ⟨hpol, -⟩ := hok
    rcases starvStep_cases h with ⟨j, hj, -, -, -, q, -, rfl⟩ | ⟨j, hj, -, rfl⟩ | ⟨-, rfl⟩
    · have := j.isLt
      simp only [Kernel.setPc_cpus, Kernel.setProc_cpus, Function.update_self, hc, CpuOk]
      exact ⟨hpol, by omega⟩
    · have := j.isLt
      simp only [Kernel.setPc_cpus, Function.update_self, hc, CpuOk]
      exact ⟨hpol, by omega⟩
    · simp [hc, CpuOk, hpol]
  | mlfq prty i minP =>
    obtain ⟨hpol, hprty, -⟩ := hok
    rcases mlfqStep_cases h with ⟨j, hj, -, rfl⟩ | ⟨-, j, -, -, rfl⟩ | ⟨-, j, -, -, rfl⟩ |
      ⟨-, -, hlt, rfl⟩ | ⟨-, -, -, rfl⟩
    · have := j.isLt
      simp only [Kernel.setPc_cpus, Function.update_self, hc, CpuOk]
      exact ⟨hpol, hprty, by omega⟩
    · simpa [hc, CpuOk] using hpol
    · simpa [CpuOk] using hpol
    · simp only [Kernel.setPc_cpus, Function.update_self, hc, CpuOk]
      exact ⟨hpol, by omega, by simp [NPROC]⟩
    · simp [hc, CpuOk]

/-- Every step keeps every CPU's record in agreement with its scheduler thread. -/
theorem cpuOk_step {c : Fin n} {a : Act} (hok : ∀ c, CpuOk pol (s.cpus c))
    (h : step pol s c a = some s') (c' : Fin n) : CpuOk pol (s'.cpus c') := by
  by_cases hc : c' = c
  swap
  · rw [step_cpus_of_ne h hc]
    exact hok c'
  subst hc
  rcases step_cases h with ⟨hidle, hs⟩ | ⟨chan, -, rfl⟩ | ⟨t, -, rfl⟩ | ⟨r, k, hr, hk, hs⟩
  · have hcpu : s.cpus c' = ⟨none, (s.cpus c').pc⟩ := by
      rw [← hidle]
    exact cpuOk_schedStep hcpu (hcpu ▸ hok c') hs
  · exact hok c'
  · exact hok c'
  · have hcpu : s.cpus c' = ⟨some r, .run k⟩ := by
      rw [← hr, ← hk]
    rcases (procStep_cpus hs).2 with hcpus | hcpus
    · rw [hcpus]
      exact hok c'
    · rw [hcpus, Function.update_self]
      exact (hcpu ▸ hok c').next

/-! ## The invariant -/

/-- What every reachable state satisfies. -/
structure Wf (pol : SchedPolicy) (s : Kernel n) : Prop where
  excl : Exclusive s
  cpu_ok : ∀ c, CpuOk pol (s.cpus c)
  nextpid_pos : 0 < s.nextpid
  pid_lt : ∀ j, (s.procs j).pid < s.nextpid
  pid_pos : ∀ j, (s.procs j).state = .unused ∨ 0 < (s.procs j).pid
  ctime_le : ∀ j, (s.procs j).ctime ≤ s.now
  hint_lt : ∀ j, (s.procs j).expectedRuntime.toNat < 2 ^ 31

theorem wf_boot (pol : SchedPolicy) (t : UInt64) : Wf pol (Kernel.boot t : Kernel n) where
  excl := exclusive_boot t
  cpu_ok _ := trivial
  nextpid_pos := by simp [Kernel.boot]
  pid_lt j := by
    by_cases hj : j = initproc <;> simp [Kernel.boot, hj, initProc, Proc.allocInit, Proc.allocStart,
      Proc.unused]
  pid_pos j := by
    by_cases hj : j = initproc <;> simp [Kernel.boot, hj, initProc, Proc.allocInit, Proc.allocStart,
      Proc.unused]
  ctime_le j := by
    by_cases hj : j = initproc <;> simp [Kernel.boot, hj, initProc, Proc.allocInit, Proc.allocStart,
      Proc.unused]
  hint_lt j := by
    by_cases hj : j = initproc <;> simp [Kernel.boot, hj, initProc, Proc.allocInit, Proc.allocStart,
      Proc.unused]

theorem Wf.step (hwf : Wf pol s) (h : Step pol s s') : Wf pol s' := by
  obtain ⟨c, a, h⟩ := h
  have hnext := step_nextpid h
  have hnow := step_now_le h
  refine ⟨hwf.excl.of_runEffect (step_runEffect h), cpuOk_step hwf.cpu_ok h, ?_,
    fun j => ?_, fun j => ?_, fun j => ?_, fun j => ?_⟩
  · have := hwf.nextpid_pos
    omega
  -- pids: unchanged, cleared to 0, or the `nextpid` that `kfork` then moves past
  · have := hwf.pid_lt j
    have := hwf.nextpid_pos
    rcases (step_slotStep h j).ident hwf.excl.running_of_proc with ⟨-, hpid, -⟩ | ⟨-, -, hpid⟩ |
      ⟨-, hpid', -, hpid, -⟩ <;> omega
  · rcases (step_slotStep h j).ident hwf.excl.running_of_proc with ⟨-, hpid, hunused⟩ |
      ⟨hunused, -, -⟩ | ⟨-, -, -, hpid, -⟩
    · rw [hpid]
      rcases hwf.pid_pos j with hu | hpos
      · exact .inl (hunused hu)
      · exact .inr hpos
    · exact .inl hunused
    · rw [hpid]
      exact .inr hwf.nextpid_pos
  · rcases (step_slotStep h j).ident hwf.excl.running_of_proc with ⟨hct, -, -⟩ | ⟨-, hct, -⟩ |
      ⟨-, -, hct, -⟩ <;> rw [hct]
    · exact UInt64.le_trans (hwf.ctime_le j) hnow
    · exact UInt64.zero_le
    · exact hnow
  · rcases (step_slotStep h j).expectedRuntime with her | ⟨arg, -, -, her⟩ | her | ⟨r, -, her⟩ <;>
      rw [her]
    · exact hwf.hint_lt j
    · exact hintOf_toNat_lt arg
    · simp
    · exact hwf.hint_lt r

theorem wf_of_reachable (h : Reachable pol s) : Wf pol s := by
  induction h with
  | boot t => exact wf_boot pol t
  | step _ hstep ih => exact ih.step hstep

end Xv6.Sched
