import Xv6.Sched.Uni

/-!
# Xv6.Sched.Fifo — `schedule_fifo` runs processes in creation order

`schedule_fifo` scans the whole table and keeps in `selected` the RUNNABLE process with the
earliest `ctime`, replacing it only by a strictly earlier one; after the scan it runs `selected`.

Strategy. The scan's invariant (`FifoScan`) says that `selected` is no later than every RUNNABLE
slot read so far; on one CPU nothing but the scan and the clock moves while it runs, so the
invariant holds of the whole table when the scan ends (`FifoOk`). Along a run in which a process
`p` stays ready, `p` keeps its creation time and every process created later sits in a slot that
holds only later processes (`FifoRun`, under any policy). A dispatch of such a slot would need its
creation time to be no later than `p`'s, which the scan has read RUNNABLE.
-/

namespace Xv6.Sched

open Xv6.Lib

variable {n : Nat} {pol : SchedPolicy} {s s' : Kernel n}

/-! ## The scan for the earliest creation time -/

/-- What `schedule_fifo`'s scan knows after reading the slots below `i`: `selected` was created no
later than every RUNNABLE slot it read. -/
def FifoScan (ps : Fin NPROC → Proc) (i : Nat) (sel : Option (Fin NPROC)) : Prop :=
  ∀ k : Fin NPROC, k.val < i → (ps k).state = .runnable →
    ∃ j, sel = some j ∧ (ps j).ctime ≤ (ps k).ctime

theorem fifoScan_zero (ps : Fin NPROC → Proc) : FifoScan ps 0 none :=
  fun _ hk => absurd hk (Nat.not_lt_zero _)

/-- One read of `schedule_fifo`'s loop keeps the scan's invariant. -/
theorem FifoScan.read {ps : Fin NPROC → Proc} {i : Nat} {sel : Option (Fin NPROC)}
    (h : FifoScan ps i sel) (j : Fin NPROC) (hj : j.val = i) :
    FifoScan ps (i + 1)
      (if (ps j).state = .runnable ∧ sel.all (fun k => (ps j).ctime < (ps k).ctime) then some j
        else sel) := by
  intro k hk hrun
  by_cases hki : k.val < i
  · obtain ⟨j', rfl, hle⟩ := h k hki hrun
    split
    · rename_i hpick
      -- the new pick was created strictly before the old one
      have hlt : (ps j).ctime < (ps j').ctime := by simpa using hpick.2
      exact ⟨j, rfl, UInt64.le_trans (UInt64.le_of_lt hlt) hle⟩
    · exact ⟨j', rfl, hle⟩
  · obtain rfl : k = j := Fin.ext (by omega)
    split
    · exact ⟨k, rfl, UInt64.le_refl _⟩
    · rename_i hnot
      -- `k` is RUNNABLE, so the comparison with `selected` failed
      cases sel with
      | none => simp [hrun] at hnot
      | some j' => exact ⟨j', rfl, by simpa [hrun] using hnot⟩

/-! ## The scan on one CPU -/

/-- Whenever the CPU is inside `schedule_fifo`'s scan, the scan's invariant holds of the table. -/
def FifoOk (s : Kernel 1) : Prop :=
  ∀ i sel, (s.cpus cpu0).pc = .fifo i sel → FifoScan s.procs i sel

theorem fifoOk_boot (t : UInt64) : FifoOk (Kernel.boot t) := by
  intro i sel h
  simp [Kernel.boot] at h

/-- Every step keeps the scan's invariant: the scan's own steps read one slot, nothing else moves
the table while the CPU is in the scan, and a running process gives the CPU back at `top`. -/
theorem FifoOk.step {s s' : Kernel 1} (hwf : Wf .fifo s) (hok : FifoOk s) (h : Step .fifo s s') :
    FifoOk s' := by
  obtain ⟨c, a, h⟩ := h
  obtain rfl := fin_one_eq_cpu0 c
  intro i sel hpc
  have hcpu := hwf.cpu_ok cpu0
  rcases step_cases h with ⟨hidle, hs⟩ | ⟨chan, hguard, rfl⟩ | ⟨t, -, rfl⟩ | ⟨r, k, -, hk, hs⟩
  · generalize hpc₀ : (s.cpus cpu0).pc = pc₀ at hs
    have hrec : s.cpus cpu0 = ⟨none, pc₀⟩ := by rw [← hidle, ← hpc₀]
    rw [hrec] at hcpu
    cases pc₀ with
    | top =>
      cases hs
      simp only [Kernel.setPc_cpus, Function.update_self, entry, SchedPc.fifo.injEq] at hpc
      obtain ⟨rfl, rfl⟩ := hpc
      exact fifoScan_zero _
    | fifo i₀ sel₀ =>
      rcases fifoStep_cases hs with ⟨j, hj, rfl⟩ | ⟨-, j, -, -, -, rfl⟩ | ⟨-, -, rfl⟩
      · simp only [Kernel.setPc_cpus, Function.update_self, SchedPc.fifo.injEq] at hpc
        obtain ⟨rfl, rfl⟩ := hpc
        exact (hok i₀ sel₀ hpc₀).read j hj
      · simp at hpc
      · simp at hpc
    | run k => cases hs
    | _ => simp [CpuOk, SchedPolicy.HasRr] at hcpu
  · -- a wakeup needs a running process or the head of `scheduler()`, not a scan
    exfalso
    have hproc := CpuOk.proc_eq_none hcpu (by intro k hk; rw [hpc] at hk; cases hk)
    rcases hguard with hguard | hguard
    · exact hguard hproc
    · rw [hpc] at hguard
      cases hguard
  · exact hok i sel hpc
  · -- the CPU stays parked in `swtch` or goes on after it, never into a scan
    rcases (procStep_cpus hs).2 with hcpus | hcpus
    · rw [hcpus, hk] at hpc
      cases hpc
    · rw [hcpus, Function.update_self] at hpc
      cases k <;> simp [Ret.next] at hpc

theorem fifoOk_of_reachable {s : Kernel 1} (h : Reachable .fifo s) : FifoOk s := by
  induction h with
  | boot t => exact fifoOk_boot t
  | step hr hs ih => exact ih.step (wf_of_reachable hr) hs

/-- Under FIFO a dispatch happens only at the end of a scan, and of the slot the scan selected. -/
theorem fifo_dispatch_pick {c : Fin n} {pc : SchedPc} (hok : CpuOk .fifo ⟨none, pc⟩)
    (h : schedStep .fifo s c pc = some s') {q : Fin NPROC} (hd : Dispatches s s' q) :
    ∃ i, NPROC ≤ i ∧ pc = .fifo i (some q) ∧ (s.procs q).state = .runnable := by
  cases pc with
  | top =>
    cases h
    exact absurd hd (not_dispatches_setPc _ _ _)
  | fifo i sel =>
    rcases fifoStep_cases h with ⟨j, -, rfl⟩ | ⟨hi, j, rfl, -, hrun, rfl⟩ | ⟨-, -, rfl⟩
    · exact absurd hd (not_dispatches_setPc _ _ _)
    · obtain rfl := dispatches_dispatch hd
      exact ⟨i, hi, rfl, hrun⟩
    · exact absurd hd (not_dispatches_setPc _ _ _)
  | run k => cases h
  | _ => simp [CpuOk, SchedPolicy.HasRr] at hok

/-! ## Creation order along a run -/

/-- Along a run: `p` is ready with creation time `cp`, the clock is past `cp`, and slot `q` is
UNUSED or holds a process created after `cp`. -/
def FifoRun (p q : Fin NPROC) (cp : UInt64) (s : Kernel n) : Prop :=
  Ready (s.procs p) ∧ (s.procs p).ctime = cp ∧ cp < s.now ∧
    ((s.procs q).state = .unused ∨ cp < (s.procs q).ctime)

/-- A step in which `p` neither sleeps nor exits keeps `FifoRun`, under every policy: a process
put into slot `q` is created at the current time, after `p`. -/
theorem FifoRun.step {p q : Fin NPROC} {cp : UInt64} (hwf : Wf pol s) (h : Step pol s s')
    (hinv : FifoRun p q cp s) (hsl : (s'.procs p).state ≠ .sleeping)
    (hz : (s'.procs p).state ≠ .zombie) : FifoRun p q cp s' := by
  obtain ⟨c, a, h⟩ := h
  obtain ⟨hready, hct, hnow, hq⟩ := hinv
  have hsp := step_slotStep h p
  have hready' := hsp.ready hready hsl hz
  refine ⟨hready', ?_, UInt64.lt_of_lt_of_le hnow (step_now_le h), ?_⟩
  · rw [(hsp.ident_of_ready hwf.excl.running_of_proc hready hready').1, hct]
  · rcases (step_slotStep h q).ident hwf.excl.running_of_proc with
      ⟨hct', -, hu⟩ | ⟨hu, -, -⟩ | ⟨-, -, hct', -⟩
    · rcases hq with hq | hq
      · exact .inl (hu hq)
      · exact .inr (hct' ▸ hq)
    · exact .inl hu
    · exact .inr (hct' ▸ hnow)

/-- FIFO never dispatches a process created after a RUNNABLE process `p`, as long as `p` does not
sleep or exit. -/
theorem fifo_creation_order {s₀ : Kernel 1} {l : List (Kernel 1)} (hs₀ : Reachable .fifo s₀)
    (hl : (s₀ :: l).IsChain (Step .fifo)) (p q : Fin NPROC)
    (hp : (s₀.procs p).state = .runnable) (hlt : (s₀.procs p).ctime < (s₀.procs q).ctime)
    (hstay : ∀ s ∈ s₀ :: l, (s.procs p).state ≠ .sleeping ∧ (s.procs p).state ≠ .zombie) :
    ∀ x y, (x, y) ∈ adj (s₀ :: l) → ¬ Dispatches x y q := by
  have hreach := reachable_of_run (fun _ _ h => h) hs₀ hl
  have hH : ∀ s ∈ s₀ :: l, ((s.procs p).state ≠ .sleeping ∧ (s.procs p).state ≠ .zombie) ∧
      Reachable .fifo s := fun s hs => ⟨hstay s hs, hreach s hs⟩
  have h₀ : FifoRun p q (s₀.procs p).ctime s₀ :=
    ⟨.inl hp, rfl, UInt64.lt_of_lt_of_le hlt ((wf_of_reachable hs₀).ctime_le q), .inr hlt⟩
  have hinv : ∀ s ∈ s₀ :: l, FifoRun p q (s₀.procs p).ctime s := by
    refine IsChain.forall_of_guard hl hH h₀ ?_
    intro s s' hs ⟨_, hr⟩ ⟨⟨hsl, hz⟩, _⟩ hinv
    exact hinv.step (wf_of_reachable hr) hs hsl hz
  intro x y hxy hd
  obtain ⟨c, a, hstep⟩ := IsChain.rel_of_mem_adj hl hxy
  obtain rfl := fin_one_eq_cpu0 c
  have hx := (mem_of_mem_adj hxy).1
  obtain ⟨hready, hct, -, hq⟩ := hinv x hx
  have hwf := wf_of_reachable (hreach x hx)
  obtain ⟨hidle, hs⟩ := step_dispatches hstep hd
  have hcpu : x.cpus cpu0 = ⟨none, (x.cpus cpu0).pc⟩ := by rw [← hidle]
  obtain ⟨i, hi, hpc, hqrun⟩ := fifo_dispatch_pick (hcpu ▸ hwf.cpu_ok cpu0) hs hd
  -- the CPU is idle, so `p` is not running: the scan read it RUNNABLE
  have hprun := hwf.excl.runnable_of_idle hidle hready
  obtain ⟨j, hj, hle⟩ := fifoOk_of_reachable (hreach x hx) i (some q) hpc p (by omega) hprun
  cases hj
  -- `q` is selected, so its slot is not UNUSED: it was created after `p`
  have hqp : (x.procs p).ctime < (x.procs q).ctime := by
    rcases hq with hu | hlt'
    · rw [hu] at hqrun
      cases hqrun
    · rwa [hct]
  exact UInt64.lt_irrefl _ (UInt64.lt_of_le_of_lt hle hqp)

/-- Init, dispatched at time 0, forks a child at time 0 and another at time 1. -/
def fifoForked : Kernel 1 :=
  runTo .fifo (Kernel.boot 0)
    (List.replicate 66 (cpu0, Act.sched) ++
      [(cpu0, Act.kfork .ok), (cpu0, Act.clock 1), (cpu0, Act.kfork .ok)])

theorem fifo_creation_order_forked :
    (fifoForked.procs ⟨1, by decide⟩).state = .runnable ∧
    (fifoForked.procs ⟨1, by decide⟩).ctime < (fifoForked.procs ⟨2, by decide⟩).ctime ∧
    (∀ x y, (x, y) ∈ adj (fifoForked :: trace .fifo fifoForked
      [(cpu0, .yield), (cpu0, .sched), (cpu0, .sched), (cpu0, .sched)]) →
      ¬ Dispatches x y ⟨2, by decide⟩) :=
  ⟨by decide, by decide, fifo_creation_order (reachable_runTo (.boot 0) _) (isChain_trace _ _ _)
    ⟨1, by decide⟩ ⟨2, by decide⟩ (by decide) (by decide) (by decide)⟩

end Xv6.Sched
