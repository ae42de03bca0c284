import Xv6.Sched.Cases
import Xv6.Lib.Run

/-!
# Xv6.Sched.Exclusive — one CPU per RUNNING process

Every scheduler of `proc.c` reaches its `swtch` differently: `schedule_rr` under the slot's lock,
`schedule_fifo` after a scan without locks and a second look under the lock, `schedule_sjf` and
`schedule_stcf` after releasing the winner's lock and taking it again, `schedule_mlfq` with the
lock it carried from the scan. Each of them tests `p->state == RUNNABLE` under the lock it then
sets `RUNNING` under, and that is all the exclusion needs.

A step touches the RUNNING processes and the `c->proc` fields in one of three ways (`RunEffect`):
not at all, a dispatch of a RUNNABLE slot by an idle CPU, or a process giving its CPU back. The
invariant `Exclusive` (every `c->proc` is RUNNING, on one CPU only, and every RUNNING process is
some CPU's) follows from that alone, for any number of CPUs and every policy.
-/

namespace Xv6.Sched

variable {n : Nat} {pol : SchedPolicy} {s s' : Kernel n}

/-! ## What a step does to `RUNNING` and `c->proc` -/

/-- The ways a step can touch the RUNNING processes and the CPUs' `c->proc`. -/
inductive RunEffect (s s' : Kernel n) : Prop where
  /-- Neither changes. -/
  | quiet (hstate : ∀ j, (s'.procs j).state = .running ↔ (s.procs j).state = .running)
      (hcpu : ∀ c, (s'.cpus c).proc = (s.cpus c).proc)
  /-- The idle CPU `c` dispatches the RUNNABLE slot `j`. -/
  | dispatch (c : Fin n) (j : Fin NPROC) (hidle : (s.cpus c).proc = none)
      (hrunnable : (s.procs j).state = .runnable) (hc : (s'.cpus c).proc = some j)
      (hj : (s'.procs j).state = .running)
      (hcpu : ∀ c', c' ≠ c → (s'.cpus c').proc = (s.cpus c').proc)
      (hstate : ∀ j', j' ≠ j → ((s'.procs j').state = .running ↔ (s.procs j').state = .running))
  /-- The process `r` of CPU `c` gives the CPU back, no longer RUNNING. -/
  | giveUp (c : Fin n) (r : Fin NPROC) (hr : (s.cpus c).proc = some r)
      (hc : (s'.cpus c).proc = none) (hj : (s'.procs r).state ≠ .running)
      (hcpu : ∀ c', c' ≠ c → (s'.cpus c').proc = (s.cpus c').proc)
      (hstate : ∀ j', j' ≠ r → ((s'.procs j').state = .running ↔ (s.procs j').state = .running))

/-- A step that leaves the CPUs alone and moves no process to or from RUNNING. -/
theorem RunEffect.of_procs (hcpus : s'.cpus = s.cpus)
    (hstate : ∀ j, (s'.procs j).state = .running ↔ (s.procs j).state = .running) :
    RunEffect s s' :=
  .quiet hstate fun c => by rw [hcpus]

/-- A write of one slot that moves it neither to nor from RUNNING. -/
theorem runEffect_setProc {j : Fin NPROC} {p : Proc}
    (hp : p.state = .running ↔ (s.procs j).state = .running) : RunEffect s (s.setProc j p) := by
  refine .of_procs rfl fun j' => ?_
  by_cases h : j' = j
  · subst h
    simpa using hp
  · simp [Function.update_of_ne h]

/-- Moving a scheduler's program counter, after writes that are quiet in the same sense. -/
theorem runEffect_setPc {s₁ : Kernel n} (hcpus : s₁.cpus = s.cpus)
    (hstate : ∀ j, (s₁.procs j).state = .running ↔ (s.procs j).state = .running)
    (c : Fin n) (pc : SchedPc) : RunEffect s (s₁.setPc c pc) := by
  refine .quiet (fun j => by simpa using hstate j) fun c' => ?_
  by_cases h : c' = c
  · subst h
    simp [hcpus]
  · simp [Function.update_of_ne h, hcpus]

theorem runEffect_dispatch {c : Fin n} {j : Fin NPROC} {p : Proc} {k : Ret}
    (hidle : (s.cpus c).proc = none) (hrun : (s.procs j).state = .runnable)
    (hp : p.state = .running) : RunEffect s (s.dispatch c j p k) := by
  refine .dispatch c j hidle hrun (by simp [Kernel.dispatch]) (by simp [Kernel.dispatch, hp])
    (fun c' hc' => ?_) (fun j' hj' => ?_)
  · simp [Kernel.dispatch, Function.update_of_ne hc']
  · simp [Kernel.dispatch, Function.update_of_ne hj']

/-- `sched()` into the scheduler's code after `swtch`, from a kernel `s₁` that differs from `s`
only by writes that leave the CPUs alone and no other slot than `r` to or from RUNNING. -/
theorem runEffect_giveUp {s₁ : Kernel n} {c : Fin n} {r : Fin NPROC} {k : Ret} {p : Proc}
    (hcpus : s₁.cpus = s.cpus)
    (hstate : ∀ j, j ≠ r → ((s₁.procs j).state = .running ↔ (s.procs j).state = .running))
    (hr : (s.cpus c).proc = some r) (hp : p.state ≠ .running) (h : s₁.giveUp c r k p = some s') :
    RunEffect s s' := by
  obtain ⟨p', pc, hx, rfl⟩ := giveUp_eq h
  refine .giveUp c r hr (by simp) ?_ (fun c' hc' => ?_) (fun j hj => ?_)
  · simpa [afterSwtch_state hx] using hp
  · simp [Function.update_of_ne hc', hcpus]
  · simpa [Function.update_of_ne hj] using hstate j hj

/-! ## The operations -/

theorem wakeupProcs_running (me : Option (Fin NPROC)) (chan : Chan) (ps : Fin NPROC → Proc)
    (j : Fin NPROC) : (wakeupProcs me chan ps j).state = .running ↔ (ps j).state = .running := by
  rcases wakeupProcs_cases me chan ps j with h | ⟨hs, -, -, h⟩
  · rw [h]
  · simp [h, hs]

theorem reparent_running (p : Fin NPROC) (ps : Fin NPROC → Proc) (j : Fin NPROC) :
    (reparent p ps j).state = .running ↔ (ps j).state = .running := by
  obtain ⟨st, h, rfl | ⟨hs, rfl⟩⟩ := reparent_cases p ps j
  · rw [h]
  · simp [h, hs]

theorem runEffect_kfork (r : Fin NPROC) (out : ForkOut) : RunEffect s (s.kfork r out) := by
  rcases kfork_cases s r out with h | ⟨j, -, hunused, hwrite⟩
  · rw [h]
    exact .of_procs rfl fun _ => Iff.rfl
  -- the slot was UNUSED and becomes UNUSED or RUNNABLE: never RUNNING on either side
  obtain ⟨p, h, hp⟩ : ∃ p : Proc, s.kfork r out =
      { s with nextpid := s.nextpid + 1 }.setProc j p ∧ p.state ≠ .running := by
    rcases hwrite with ⟨q, h⟩ | ⟨-, h⟩
    · exact ⟨_, h, by simp [Proc.freeproc]⟩
    · exact ⟨_, h, by simp⟩
  rw [h]
  refine .of_procs rfl fun j' => ?_
  by_cases hj : j' = j
  · subst hj
    simp [hunused, hp]
  · simp [Function.update_of_ne hj]

theorem runEffect_kkill (pid : Int32) : RunEffect s (s.kkill pid) := by
  rcases kkill_cases s pid with h | ⟨j, -, h⟩
  · rw [h]
    exact .of_procs rfl fun _ => Iff.rfl
  · rw [h]
    refine runEffect_setProc ?_
    split <;> simp_all

/-- The operations of the process `r` that CPU `c` runs: the ones that end in `sched()` give the
CPU back, the others are quiet. -/
theorem procStep_runEffect {c : Fin n} {r : Fin NPROC} {k : Ret} {a : Act}
    (hr : (s.cpus c).proc = some r) (h : procStep s c r k a = some s') : RunEffect s s' := by
  cases a with
  | yield => exact runEffect_giveUp rfl (fun _ _ => Iff.rfl) hr (by simp) h
  | sleep chan => exact runEffect_giveUp rfl (fun _ _ => Iff.rfl) hr (by simp) h
  | kexit status =>
    obtain ⟨-, h⟩ := kexit_eq h
    refine runEffect_giveUp ?_ (fun j _ => ?_) hr ?_ h
    · rfl
    · exact (wakeupProcs_running _ _ _ j).trans (reparent_running r s.procs j)
    · simp [Proc.kexitAccount]
  | kwait =>
    rcases kwait_cases h with ⟨z, -, -, hzombie, rfl⟩ | ⟨-, -, h⟩ | rfl
    · exact runEffect_setProc (by simp [Proc.freeproc, hzombie])
    · exact runEffect_giveUp rfl (fun _ _ => Iff.rfl) hr (by simp) h
    · exact .of_procs rfl fun _ => Iff.rfl
  | kfork out =>
    cases h
    exact runEffect_kfork r out
  | kkill pid =>
    cases h
    exact runEffect_kkill pid
  | setexpected arg =>
    cases h
    exact runEffect_setProc (by simp [Proc.setexpected])
  | setstcfvals arg =>
    cases h
    exact runEffect_setProc (by simp [Proc.setstcfvals])
  | tick =>
    cases h
    refine runEffect_setProc ?_
    unfold Proc.tick
    split <;> rfl
  | sched => cases h
  | wakeup _ => cases h
  | clock _ => cases h

/-- Every step of the kernel, on any CPU and under any policy, is one of the three effects. -/
theorem step_runEffect {c : Fin n} {a : Act} (h : step pol s c a = some s') : RunEffect s s' := by
  rcases step_cases h with ⟨hidle, hs⟩ | ⟨chan, -, rfl⟩ | ⟨t, -, rfl⟩ | ⟨r, k, hr, -, hs⟩
  · rcases schedStep_cases hs with ⟨pc', rfl⟩ | ⟨j, q, pc', -, -, -, rfl⟩ | ⟨j, k, hrun, rfl | rfl⟩
    · exact runEffect_setPc rfl (fun _ => Iff.rfl) c pc'
    -- aging in `starvation_clean` writes the level and the slice only
    · refine runEffect_setPc ?_ (fun j' => ?_) c pc'
      · rfl
      by_cases hj : j' = j
      · subst hj
        simp
      · simp [Function.update_of_ne hj]
    · exact runEffect_dispatch hidle hrun (by simp)
    · exact runEffect_dispatch hidle hrun (by simp)
  · exact .of_procs rfl fun j => wakeupProcs_running _ _ _ j
  · exact .of_procs rfl fun _ => Iff.rfl
  · exact procStep_runEffect hr hs

/-! ## The invariant -/

/-- RUNNING means running on exactly one CPU. -/
structure Exclusive (s : Kernel n) : Prop where
  running_of_proc : ∀ c r, (s.cpus c).proc = some r → (s.procs r).state = .running
  cpu_unique : ∀ c c' r, (s.cpus c).proc = some r → (s.cpus c').proc = some r → c = c'
  proc_of_running : ∀ r, (s.procs r).state = .running → ∃ c, (s.cpus c).proc = some r

theorem exclusive_boot (t : UInt64) : Exclusive (Kernel.boot t : Kernel n) where
  running_of_proc c r h := by simp [Kernel.boot] at h
  cpu_unique c c' r h := by simp [Kernel.boot] at h
  proc_of_running r h := by
    exfalso
    by_cases hr : r = initproc
    · simp [Kernel.boot, hr, initProc] at h
    · simp [Kernel.boot, hr, Proc.unused] at h

theorem Exclusive.of_runEffect (hinv : Exclusive s) (he : RunEffect s s') : Exclusive s' := by
  cases he with
  | quiet hstate hcpu =>
    refine ⟨fun c r h => ?_, fun c c' r h h' => ?_, fun r h => ?_⟩
    · rw [hcpu] at h
      exact (hstate r).mpr (hinv.running_of_proc c r h)
    · rw [hcpu] at h h'
      exact hinv.cpu_unique c c' r h h'
    · obtain ⟨c, hc⟩ := hinv.proc_of_running r ((hstate r).mp h)
      exact ⟨c, (hcpu c).trans hc⟩
  | dispatch c j hidle hrunnable hc hj hcpu hstate =>
    -- `j` was RUNNABLE, so no CPU ran it before
    have hfree : ∀ c', (s.cpus c').proc ≠ some j := fun c' h' => by
      simpa [hrunnable] using hinv.running_of_proc c' j h'
    refine ⟨fun c' r h => ?_, fun c₁ c₂ r h₁ h₂ => ?_, fun r h => ?_⟩
    · by_cases hcc : c' = c
      · subst hcc
        obtain rfl : r = j := by simpa [hc] using h.symm
        exact hj
      · rw [hcpu c' hcc] at h
        have hr : (s.procs r).state = .running := hinv.running_of_proc c' r h
        have hrj : r ≠ j := by
          rintro rfl
          simp [hrunnable] at hr
        exact (hstate r hrj).mpr hr
    · by_cases h1 : c₁ = c <;> by_cases h2 : c₂ = c
      · rw [h1, h2]
      · subst h1
        rw [hcpu c₂ h2, show r = j by simpa [hc] using h₁.symm] at h₂
        exact absurd h₂ (hfree c₂)
      · subst h2
        rw [hcpu c₁ h1, show r = j by simpa [hc] using h₂.symm] at h₁
        exact absurd h₁ (hfree c₁)
      · rw [hcpu c₁ h1] at h₁
        rw [hcpu c₂ h2] at h₂
        exact hinv.cpu_unique c₁ c₂ r h₁ h₂
    · by_cases hrj : r = j
      · exact ⟨c, hrj ▸ hc⟩
      · obtain ⟨c', hc'⟩ := hinv.proc_of_running r ((hstate r hrj).mp h)
        have hne : c' ≠ c := by
          rintro rfl
          simp [hidle] at hc'
        exact ⟨c', (hcpu c' hne).trans hc'⟩
  | giveUp c r hr hc hj hcpu hstate =>
    -- every CPU that still runs a process is another CPU, unchanged by the step
    have hother : ∀ c' r', (s'.cpus c').proc = some r' → c' ≠ c ∧ (s.cpus c').proc = some r' :=
      fun c' r' h => by
        have hne : c' ≠ c := by
          rintro rfl
          simp [hc] at h
        exact ⟨hne, (hcpu c' hne).symm.trans h⟩
    refine ⟨fun c' r' h => ?_, fun c₁ c₂ r' h₁ h₂ => ?_, fun r' h => ?_⟩
    · obtain ⟨hne, h⟩ := hother c' r' h
      have hr' : r' ≠ r := by
        rintro rfl
        exact hne (hinv.cpu_unique c' c r' h hr)
      exact (hstate r' hr').mpr (hinv.running_of_proc c' r' h)
    · exact hinv.cpu_unique c₁ c₂ r' (hother c₁ r' h₁).2 (hother c₂ r' h₂).2
    · have hr' : r' ≠ r := by
        rintro rfl
        exact hj h
      obtain ⟨c', hc'⟩ := hinv.proc_of_running r' ((hstate r' hr').mp h)
      have hne : c' ≠ c := by
        rintro rfl
        simp [hr] at hc'
        exact hr' hc'.symm
      exact ⟨c', (hcpu c' hne).trans hc'⟩

theorem Exclusive.step (hinv : Exclusive s) (h : Step pol s s') : Exclusive s' := by
  obtain ⟨c, a, h⟩ := h
  exact hinv.of_runEffect (step_runEffect h)

theorem exclusive_of_reachable (h : Reachable pol s) : Exclusive s := by
  induction h with
  | boot t => exact exclusive_boot t
  | step _ hstep ih => exact ih.step hstep

/-- The dispatch of every policy: a CPU takes a process only when it is RUNNABLE and makes it
RUNNING, and a process becomes RUNNING only from RUNNABLE, taken by a CPU that ran nothing. In
every reachable state, whatever the number of CPUs, no two CPUs run one process, every `c->proc`
is RUNNING, and every RUNNING process is `c->proc` of exactly one CPU. -/
theorem dispatch_runnable_cpu_exclusive (pol : SchedPolicy) (n : Nat) :
    (∀ s s' : Kernel n, Step pol s s' → ∀ (c : Fin n) (p : Fin NPROC),
      (s.cpus c).proc ≠ some p → (s'.cpus c).proc = some p →
      (s.procs p).state = .runnable ∧ (s'.procs p).state = .running) ∧
    (∀ s s' : Kernel n, Step pol s s' → ∀ p : Fin NPROC,
      (s.procs p).state ≠ .running → (s'.procs p).state = .running →
      (s.procs p).state = .runnable ∧ ∃ c, (s.cpus c).proc = none ∧ (s'.cpus c).proc = some p) ∧
    (∀ s : Kernel n, Reachable pol s →
      (∀ c c' p, (s.cpus c).proc = some p → (s.cpus c').proc = some p → c = c') ∧
      (∀ c p, (s.cpus c).proc = some p → (s.procs p).state = .running) ∧
      (∀ p, (s.procs p).state = .running → ∃! c, (s.cpus c).proc = some p)) := by
  refine ⟨fun s s' hstep c p hne hp => ?_, fun s s' hstep p hne hp => ?_, fun s hs => ?_⟩
  · obtain ⟨c₀, a, h⟩ := hstep
    cases step_runEffect h with
    | quiet _ hcpu => exact absurd ((hcpu c).symm.trans hp) hne
    | dispatch c₁ j _ hrunnable hc hj hcpu _ =>
      by_cases hcc : c = c₁
      · subst hcc
        obtain rfl : p = j := by simpa [hc] using hp.symm
        exact ⟨hrunnable, hj⟩
      · exact absurd ((hcpu c hcc).symm.trans hp) hne
    | giveUp c₁ r _ hc _ hcpu _ =>
      by_cases hcc : c = c₁
      · subst hcc
        simp [hc] at hp
      · exact absurd ((hcpu c hcc).symm.trans hp) hne
  · obtain ⟨c₀, a, h⟩ := hstep
    cases step_runEffect h with
    | quiet hstate _ => exact absurd ((hstate p).mp hp) hne
    | dispatch c₁ j hidle hrunnable hc _ _ hstate =>
      by_cases hpj : p = j
      · subst hpj
        exact ⟨hrunnable, c₁, hidle, hc⟩
      · exact absurd ((hstate p hpj).mp hp) hne
    | giveUp c₁ r _ _ hj _ hstate =>
      by_cases hpr : p = r
      · subst hpr
        exact absurd hp hj
      · exact absurd ((hstate p hpr).mp hp) hne
  · have hinv := exclusive_of_reachable hs
    refine ⟨hinv.cpu_unique, hinv.running_of_proc, fun p hp => ?_⟩
    obtain ⟨c, hc⟩ := hinv.proc_of_running p hp
    exact ⟨c, hc, fun c' hc' => hinv.cpu_unique c' c p hc' hc⟩


/-- Two CPUs after boot that have both entered `schedule_rr`'s scan at slot 0, CPU 1 first. -/
def rrCpu1Entered : Kernel 2 := (step .rr (Kernel.boot 0) 1 .sched).getD (Kernel.boot 0)

def rrBothEntered : Kernel 2 := (step .rr rrCpu1Entered 0 .sched).getD rrCpu1Entered

/-- CPU 0 dispatches `initproc`; CPU 1 is still about to look at its slot. -/
def rrDispatched : Kernel 2 := (step .rr rrBothEntered 0 .sched).getD rrBothEntered

theorem dispatch_runnable_cpu_exclusive_rrDispatched :
    ((rrBothEntered.procs 0).state = .runnable ∧ (rrDispatched.procs 0).state = .running) ∧
    (∃ c, (rrBothEntered.cpus c).proc = none ∧ (rrDispatched.cpus c).proc = some 0) ∧
    (rrDispatched.cpus 1).pc = .rr 0 ∧ ∃! c, (rrDispatched.cpus c).proc = some 0 := by
  obtain ⟨hdisp, hrun, hreach⟩ := dispatch_runnable_cpu_exclusive .rr 2
  have hstep : Step .rr rrBothEntered rrDispatched := ⟨0, .sched, rfl⟩
  have hr : Reachable .rr rrDispatched :=
    (((Reachable.boot 0).step ⟨1, .sched, rfl⟩).step ⟨0, .sched, rfl⟩).step hstep
  have hne : (rrBothEntered.cpus 0).proc ≠ some 0 := by decide
  have hp : (rrDispatched.cpus 0).proc = some 0 := by decide
  have hnr : (rrBothEntered.procs 0).state ≠ .running := by decide
  have hpr : (rrDispatched.procs 0).state = .running := by decide
  exact ⟨hdisp _ _ hstep 0 0 hne hp, (hrun _ _ hstep 0 hnr hpr).2, by decide,
    (hreach _ hr).2.2 0 hpr⟩

end Xv6.Sched
