import Xv6.Sched.Wf
import Xv6.Lib.Run

/-!
# Xv6.Sched.Uni — one CPU, and runs of the kernel

The ordering properties of a single CPU share two facts. A process becomes RUNNING only in a
scheduler step (`step_dispatches`). A process that neither sleeps nor exits stays RUNNABLE or
RUNNING and keeps its pid and creation time (`SlotStep.ready`).

A run is a list of states each related to the next (`Xv6.Lib.Run`); `trace` is the run a list of
CPU and action pairs takes, as far as each step is enabled.
-/

namespace Xv6.Sched

variable {n : Nat} {pol : SchedPolicy} {s s' : Kernel n}

/-! ## Dispatches -/

/-- The step from `s` to `s'` dispatches slot `j`: it becomes RUNNING. -/
def Dispatches (s s' : Kernel n) (j : Fin NPROC) : Prop :=
  (s.procs j).state ≠ .running ∧ (s'.procs j).state = .running

instance (s s' : Kernel n) (j : Fin NPROC) : Decidable (Dispatches s s' j) :=
  inferInstanceAs (Decidable (_ ∧ _))

/-- No operation of a running process makes a process RUNNING: they end in `sched()` or leave the
CPUs alone. -/
theorem procStep_running {c : Fin n} {r j : Fin NPROC} {k : Ret} {a : Act}
    (hr : (s.cpus c).proc = some r) (hs : procStep s c r k a = some s')
    (hj : (s'.procs j).state = .running) : (s.procs j).state = .running := by
  cases procStep_runEffect hr hs with
  | quiet hstate _ => exact (hstate j).mp hj
  | dispatch c' j' hidle _ hc _ _ _ =>
    -- `c'` would have to get a process, but the CPUs are unchanged or `c` lost its own
    exfalso
    rcases (procStep_cpus hs).2 with hcpus | hcpus
    · rw [hcpus, hidle] at hc
      cases hc
    · by_cases hcc : c' = c
      · subst hcc
        rw [hcpus, Function.update_self] at hc
        cases hc
      · rw [hcpus, Function.update_of_ne hcc, hidle] at hc
        cases hc
  | giveUp c' r' _ _ hr' _ hstate =>
    by_cases hjr : j = r'
    · subst hjr
      exact absurd hj hr'
    · exact (hstate j hjr).mp hj

/-- A process becomes RUNNING only in a step of the scheduler thread of an idle CPU. -/
theorem step_dispatches {c : Fin n} {a : Act} {j : Fin NPROC} (h : step pol s c a = some s')
    (hd : Dispatches s s' j) :
    (s.cpus c).proc = none ∧ schedStep pol s c (s.cpus c).pc = some s' := by
  rcases step_cases h with hs | ⟨chan, -, rfl⟩ | ⟨t, -, rfl⟩ | ⟨r, k, hr, -, hs⟩
  · exact hs
  · exact absurd ((wakeupProcs_running _ _ _ j).mp hd.2) hd.1
  · exact absurd hd.2 hd.1
  · exact absurd (procStep_running hr hs hd.2) hd.1

/-- A scheduler step that only moves the program counter dispatches nothing. -/
theorem not_dispatches_setPc (c : Fin n) (pc : SchedPc) (j : Fin NPROC) :
    ¬ Dispatches s (s.setPc c pc) j := by
  rintro ⟨hne, hrun⟩
  exact hne hrun

/-- A dispatch by `Kernel.dispatch` dispatches the slot it writes and no other. -/
theorem dispatches_dispatch {c : Fin n} {j j' : Fin NPROC} {p : Proc} {k : Ret}
    (hd : Dispatches s (s.dispatch c j p k) j') : j' = j := by
  by_contra hne
  exact hd.1 (by simpa [Function.update_of_ne hne] using hd.2)

/-! ## One CPU -/

/-- The one CPU of a uniprocessor. -/
def cpu0 : Fin 1 := 0

theorem fin_one_eq_cpu0 (c : Fin 1) : c = cpu0 :=
  Subsingleton.elim c cpu0

/-- On one CPU, a RUNNING process is the one the CPU runs. -/
theorem Exclusive.running_uni {s : Kernel 1} (hex : Exclusive s) {j : Fin NPROC}
    (hj : (s.procs j).state = .running) : (s.cpus cpu0).proc = some j := by
  obtain ⟨c, hc⟩ := hex.proc_of_running j hj
  rwa [fin_one_eq_cpu0 c] at hc

/-! ## Processes that stay ready -/

/-- RUNNABLE or RUNNING. -/
def Ready (p : Proc) : Prop :=
  p.state = .runnable ∨ p.state = .running

instance (p : Proc) : Decidable (Ready p) :=
  inferInstanceAs (Decidable (_ ∨ _))

/-- While the one CPU runs nothing, a ready process is RUNNABLE. -/
theorem Exclusive.runnable_of_idle {s : Kernel 1} (hex : Exclusive s)
    (hidle : (s.cpus cpu0).proc = none) {j : Fin NPROC} (hj : Ready (s.procs j)) :
    (s.procs j).state = .runnable := by
  rcases hj with hj | hj
  · exact hj
  · have hc := hex.running_uni hj
    rw [hidle] at hc
    cases hc

/-- A ready process that does not sleep or exit in a step is ready after it. -/
theorem SlotStep.ready {c : Fin n} {a : Act} {j : Fin NPROC} (h : SlotStep s s' c a j)
    (hj : Ready (s.procs j)) (hsl : (s'.procs j).state ≠ .sleeping)
    (hz : (s'.procs j).state ≠ .zombie) : Ready (s'.procs j) := by
  have hnot : (s.procs j).state ≠ .sleeping ∧ (s.procs j).state ≠ .unused ∧
      (s.procs j).state ≠ .zombie := by
    rcases hj with hj | hj <;> simp [hj]
  cases h with
  | same h => rwa [h]
  | dispatch _ h | dispatchMlfq _ h =>
    right
    simp [h]
  | age q _ _ _ h => rwa [h]
  | yield k pc hc h =>
    left
    rw [afterSwtch_state h]
  | sleep k pc chan hc h => exact absurd (afterSwtch_state h) hsl
  | exit k pc par status hc h => exact absurd (afterSwtch_state h) hz
  | relink par st hpar hst h =>
    rw [h]
    rcases hst with rfl | ⟨hs, -⟩
    · exact hj
    · exact absurd hs hnot.1
  | reap r hc hpar hzombie h => exact absurd hzombie hnot.2.2
  | fork r hc hunused hpid h => exact absurd hunused hnot.2.1
  | forkFail q hunused hpid h => exact absurd hunused hnot.2.1
  | kill pid hpid h =>
    rw [h, Ready, if_neg hnot.1]
    exact hj
  | setexpected arg ha hc h | setstcfvals arg ha hc h => rwa [h]
  | tick hc h =>
    rw [h]
    unfold Proc.tick
    split
    · exact hj
    · exact hj

/-- A process ready at the start of a run that never sleeps or exits stays ready. -/
theorem ready_of_run {s₀ : Kernel n} {l : List (Kernel n)} {p : Fin NPROC}
    (hl : (s₀ :: l).IsChain (Step pol)) (hp : Ready (s₀.procs p))
    (hstay : ∀ s ∈ s₀ :: l, (s.procs p).state ≠ .sleeping ∧ (s.procs p).state ≠ .zombie) :
    ∀ s ∈ s₀ :: l, Ready (s.procs p) :=
  Xv6.Lib.IsChain.forall_of_guard hl hstay hp fun _ _ ⟨_, _, h⟩ _ ⟨hsl, hz⟩ hr =>
    (step_slotStep h p).ready hr hsl hz

/-- A ready slot that stays ready keeps its pid and its creation time. -/
theorem SlotStep.ident_of_ready {c : Fin n} {a : Act} {j : Fin NPROC}
    (hrun : ∀ c r, (s.cpus c).proc = some r → (s.procs r).state = .running)
    (h : SlotStep s s' c a j) (hj : Ready (s.procs j)) (hj' : Ready (s'.procs j)) :
    (s'.procs j).ctime = (s.procs j).ctime ∧ (s'.procs j).pid = (s.procs j).pid := by
  rcases h.ident hrun with ⟨hct, hpid, -⟩ | ⟨hu, -, -⟩ | ⟨hu, -⟩
  · exact ⟨hct, hpid⟩
  · rcases hj' with hj' | hj' <;> simp [hu] at hj'
  · rcases hj with hj | hj <;> simp [hu] at hj

/-! ## Runs -/

/-- Every state of a run of the kernel from a reachable state is reachable. -/
theorem reachable_of_run {s₀ : Kernel n} {l : List (Kernel n)} {R : Kernel n → Kernel n → Prop}
    (hR : ∀ s s', R s s' → Step pol s s') (hs₀ : Reachable pol s₀) (hl : (s₀ :: l).IsChain R) :
    ∀ s ∈ s₀ :: l, Reachable pol s := by
  intro s hs
  rcases List.mem_cons.mp hs with rfl | hs
  · exact hs₀
  · exact List.IsChain.cons_induction (Reachable pol) l hl (fun _ _ h hs => hs.step (hR _ _ h)) hs₀
      s hs

/-- The states a list of CPU and action pairs leads through from `s`, up to the first one that is
not enabled. -/
def trace (pol : SchedPolicy) (s : Kernel n) : List (Fin n × Act) → List (Kernel n)
  | [] => []
  | (c, a) :: acts =>
    match step pol s c a with
    | some s' => s' :: trace pol s' acts
    | none => []

/-- Where `trace` ends. -/
def runTo (pol : SchedPolicy) (s : Kernel n) (acts : List (Fin n × Act)) : Kernel n :=
  (trace pol s acts).getLast?.getD s

theorem isChain_trace (pol : SchedPolicy) (s : Kernel n) (acts : List (Fin n × Act)) :
    (s :: trace pol s acts).IsChain (Step pol) := by
  induction acts generalizing s with
  | nil => exact List.isChain_singleton s
  | cons x acts ih =>
    obtain ⟨c, a⟩ := x
    simp only [trace]
    split
    · rename_i s' h
      exact List.IsChain.cons_cons ⟨c, a, h⟩ (ih s')
    · exact List.isChain_singleton s

theorem reachable_runTo {s : Kernel n} (h : Reachable pol s) (acts : List (Fin n × Act)) :
    Reachable pol (runTo pol s acts) := by
  unfold runTo
  cases hl : (trace pol s acts).getLast? with
  | none => exact h
  | some s' =>
    exact reachable_of_run (fun _ _ h => h) h (isChain_trace pol s acts) s'
      (List.mem_cons_of_mem _ (List.mem_of_getLast? hl))

end Xv6.Sched
