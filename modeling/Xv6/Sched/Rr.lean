import Xv6.Sched.Uni

/-!
# Xv6.Sched.Rr — `schedule_rr` lets no ready process be overtaken twice

On one CPU the scheduler thread walks the process table in a cycle: `schedule_rr` scans slots
`0 … NPROC-1`, resumes after each `swtch` at the next slot, and returns to `scheduler()`, which
calls it again from slot 0.

Strategy. Measure the walk from the slot after `p` (`rrPos`). While `p` stays ready and is not
dispatched the measure never goes down: the only way back to the start is through slot `p`, where
the walk finds `p` RUNNABLE and would dispatch it. A dispatch of `q` leaves the level of slot `q`
for a higher one, so it happens at most once (`Xv6.Lib.IsChain.countP_adj_le_one`).
-/

namespace Xv6.Sched

open Xv6.Lib

variable {n : Nat} {s s' : Kernel n}

/-! ## The scheduler thread under RR -/

/-- Under RR the scheduler thread of an idle CPU either calls `schedule_rr` or is inside a round. -/
theorem rr_schedStep {c : Fin n} {pc : SchedPc} (hok : CpuOk .rr ⟨none, pc⟩)
    (h : schedStep .rr s c pc = some s') :
    (pc = .top ∧ s' = s.setPc c (.rr 0)) ∨
      (∃ i, i ≤ NPROC ∧ pc = .rr i ∧ rrStep s c i = some s') := by
  cases pc with
  | top => exact .inl ⟨rfl, (Option.some.inj h).symm⟩
  | rr i => exact .inr ⟨i, hok.2, rfl, h⟩
  | run k => cases h
  | _ => simp [CpuOk] at hok

/-- A dispatch in a `schedule_rr` round is of the slot the round is at, and parks the thread in
`swtch` there. -/
theorem rrStep_dispatches {c : Fin n} {i : Nat} (h : rrStep s c i = some s') {q : Fin NPROC}
    (hd : Dispatches s s' q) : q.val = i ∧ s'.cpus c = ⟨some q, .run (.rr i)⟩ := by
  rcases rrStep_cases h with ⟨j, hj, -, -, rfl⟩ | ⟨j, -, -, -, rfl⟩ | ⟨-, rfl⟩
  · obtain rfl := dispatches_dispatch hd
    exact ⟨hj, by simp⟩
  · exact absurd hd (not_dispatches_setPc _ _ _)
  · exact absurd hd (not_dispatches_setPc _ _ _)

/-! ## The walk, measured from the slot after `p` -/

/-- How far slot `i` is along the walk that starts at the slot after `p` (slot `p` is last). -/
def rrDist (p : Fin NPROC) (i : Nat) : Nat :=
  (i + NPROC - (p.val + 1)) % NPROC

/-- Where the scheduler thread is on the walk that starts after `p`: the round at slot `i` is at
`2 * rrDist p i`, parked in `swtch` there one above, and the head of `scheduler()` where slot 0
is. Parked at `p` itself, the walk has just begun again. -/
def rrPos (p : Fin NPROC) : SchedPc → Nat
  | .rr i => 2 * rrDist p i
  | .run (.rr i) => if i = p.val then 0 else 2 * rrDist p i + 1
  | .top => 2 * rrDist p 0
  | _ => 0

theorem rrDist_succ (p : Fin NPROC) {i : Nat} (hi : i < NPROC) (hp : i ≠ p.val) :
    rrDist p (i + 1) = rrDist p i + 1 := by
  have := p.isLt
  simp only [rrDist, nproc_eq] at *
  omega

theorem rrDist_nproc (p : Fin NPROC) : rrDist p NPROC = rrDist p 0 := by
  have := p.isLt
  simp only [rrDist, nproc_eq] at *
  omega

/-- Leaving `swtch` for the next slot does not go back on the walk. -/
theorem rrPos_next (p : Fin NPROC) {i : Nat} (hi : i < NPROC) :
    rrPos p (.run (.rr i)) ≤ rrPos p (.rr (i + 1)) := by
  simp only [rrPos]
  split
  · exact Nat.zero_le _
  · rename_i hp
    rw [rrDist_succ p hi hp]
    omega

/-- A step in which `p` stays ready and is not dispatched does not go back on the walk. -/
theorem rrPos_step {s s' : Kernel 1} {p : Fin NPROC} (hwf : Wf .rr s) (h : Step .rr s s')
    (hp : Ready (s.procs p)) (hnd : ¬ Dispatches s s' p) :
    rrPos p (s.cpus cpu0).pc ≤ rrPos p (s'.cpus cpu0).pc := by
  obtain ⟨c, a, h⟩ := h
  obtain rfl := fin_one_eq_cpu0 c
  rcases step_cases h with ⟨hidle, hs⟩ | ⟨chan, -, rfl⟩ | ⟨t, -, rfl⟩ | ⟨r, k, hr, hk, hs⟩
  · have hcpu : s.cpus cpu0 = ⟨none, (s.cpus cpu0).pc⟩ := by rw [← hidle]
    have hprun := hwf.excl.runnable_of_idle hidle hp
    rcases rr_schedStep (hcpu ▸ hwf.cpu_ok cpu0) hs with ⟨hpc, rfl⟩ | ⟨i, hi, hpc, hs⟩
    · simp [hpc, rrPos]
    rw [hpc]
    rcases rrStep_cases hs with ⟨j, hj, -, hrun, rfl⟩ | ⟨j, hj, -, hrun, rfl⟩ | ⟨hi', rfl⟩
    · -- the round dispatches slot `j`, which is not `p`
      have hjp : j.val ≠ p.val := by
        intro hjp
        obtain rfl : j = p := Fin.ext hjp
        exact hnd ⟨by simp [hrun], by simp⟩
      simp only [Kernel.dispatch_cpus, Function.update_self, rrPos, ← hj, if_neg hjp]
      omega
    · -- the round passes slot `j`, which is not RUNNABLE and so not `p`
      have hjp : j.val ≠ p.val := fun hjp => hrun (Fin.ext hjp ▸ hprun)
      simp only [Kernel.setPc_cpus, Function.update_self, rrPos, ← hj]
      rw [rrDist_succ p j.isLt hjp]
      omega
    · -- the round ends and the thread returns to the head of `scheduler()`
      obtain rfl : i = NPROC := by omega
      simp [rrPos, rrDist_nproc]
  · simp
  · simp
  · -- the running process gives the CPU back, and the round goes on at the next slot
    have hrec : s.cpus cpu0 = ⟨some r, .run k⟩ := by rw [← hr, ← hk]
    have hcpu := hwf.cpu_ok cpu0
    rw [hrec] at hcpu
    rcases (procStep_cpus hs).2 with hcpus | hcpus
    · rw [hcpus]
    · rw [hcpus, Function.update_self, hk]
      cases k with
      | rr i =>
        obtain ⟨-, hri⟩ := hcpu
        exact rrPos_next p (hri ▸ r.isLt)
      | _ => simp [CpuOk] at hcpu

/-- A dispatch of `q` while `p` is not dispatched moves the walk from slot `q` strictly up. -/
theorem rrPos_dispatch {s s' : Kernel 1} {p q : Fin NPROC} (hwf : Wf .rr s) (h : Step .rr s s')
    (hnd : ¬ Dispatches s s' p) (hd : Dispatches s s' q) :
    rrPos p (s.cpus cpu0).pc = 2 * rrDist p q ∧ 2 * rrDist p q < rrPos p (s'.cpus cpu0).pc := by
  obtain ⟨c, a, h⟩ := h
  obtain rfl := fin_one_eq_cpu0 c
  obtain ⟨hidle, hs⟩ := step_dispatches h hd
  have hqp : q.val ≠ p.val := fun hqp => hnd (Fin.ext hqp ▸ hd)
  have hcpu : s.cpus cpu0 = ⟨none, (s.cpus cpu0).pc⟩ := by rw [← hidle]
  rcases rr_schedStep (hcpu ▸ hwf.cpu_ok cpu0) hs with ⟨-, rfl⟩ | ⟨i, -, hpc, hs⟩
  · exact absurd hd (not_dispatches_setPc _ _ _)
  obtain ⟨rfl, hcpus⟩ := rrStep_dispatches hs hd
  rw [hpc, hcpus]
  refine ⟨rfl, ?_⟩
  simp only [rrPos, if_neg hqp]
  omega

/-! ## Bounded bypass -/

/-- A step of a run under RR on one CPU in which `p` is ready and not dispatched. -/
def RrQuiet (p : Fin NPROC) (s s' : Kernel 1) : Prop :=
  Step .rr s s' ∧ Wf .rr s ∧ Ready (s.procs p) ∧ ¬ Dispatches s s' p

/-- Under RR, along any stretch of a run in which `p` stays RUNNABLE or RUNNING and is not
dispatched, in particular between two consecutive dispatches of `p`, slot `q` is dispatched at
most once. -/
theorem rr_bounded_bypass {s₀ : Kernel 1} {l : List (Kernel 1)} (hs₀ : Reachable .rr s₀)
    (hl : (s₀ :: l).IsChain (Step .rr)) (p q : Fin NPROC)
    (hready : ∀ s ∈ s₀ :: l, Ready (s.procs p))
    (hnp : ∀ st ∈ adj (s₀ :: l), ¬ Dispatches st.1 st.2 p) :
    (adj (s₀ :: l)).countP (fun x => decide (Dispatches x.1 x.2 q)) ≤ 1 := by
  have hreach := reachable_of_run (fun _ _ h => h) hs₀ hl
  have hR : (s₀ :: l).IsChain (RrQuiet p) := by
    refine isChain_of_forall_adj fun x y hxy => ?_
    have hx := (mem_of_mem_adj hxy).1
    exact ⟨IsChain.rel_of_mem_adj hl hxy, wf_of_reachable (hreach x hx), hready x hx, hnp (x, y) hxy⟩
  have hmono : ∀ x y, RrQuiet p x y → rrPos p (x.cpus cpu0).pc ≤ rrPos p (y.cpus cpu0).pc :=
    fun _ _ ⟨h, hwf, hp, hnd⟩ => rrPos_step hwf h hp hnd
  have hD : ∀ x y, RrQuiet p x y → Dispatches x y q →
      rrPos p (x.cpus cpu0).pc = 2 * rrDist p q ∧ 2 * rrDist p q < rrPos p (y.cpus cpu0).pc :=
    fun _ _ ⟨h, hwf, _, hnd⟩ hd => rrPos_dispatch hwf h hnd hd
  exact IsChain.countP_adj_le_one hmono hD hR

/-- Init, dispatched by the first round, has forked a child into slot 1. -/
def rrForked : Kernel 1 :=
  runTo .rr (Kernel.boot 0) [(cpu0, .sched), (cpu0, .sched), (cpu0, .kfork .ok)]

theorem rr_bounded_bypass_forked :
    (∀ s ∈ rrForked :: trace .rr rrForked [(cpu0, .yield), (cpu0, .sched), (cpu0, .yield)],
      Ready (s.procs ⟨0, by decide⟩)) ∧
    (∀ st ∈ adj (rrForked :: trace .rr rrForked [(cpu0, .yield), (cpu0, .sched), (cpu0, .yield)]),
      ¬ Dispatches st.1 st.2 ⟨0, by decide⟩) ∧
    (adj (rrForked :: trace .rr rrForked [(cpu0, .yield), (cpu0, .sched), (cpu0, .yield)])).countP
      (fun x => decide (Dispatches x.1 x.2 ⟨1, by decide⟩)) ≤ 1 :=
  ⟨by decide, by decide, rr_bounded_bypass (reachable_runTo (.boot 0) _) (isChain_trace _ _ _)
    ⟨0, by decide⟩ ⟨1, by decide⟩ (by decide) (by decide)⟩

end Xv6.Sched
