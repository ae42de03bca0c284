import Xv6.Sched.Uni
import Xv6.Lib.Scan

/-!
# Xv6.Sched.Shortest — the scans of `schedule_sjf` and `schedule_stcf`

Both scans rank the RUNNABLE processes by `(key, ctime, pid)`, strictly and in that order, and
keep the first best one in the locals `best`, `best_key`, `best_ctime`, `best_pid`; they differ in
the key only (`sjfKey`, `stcfKey`). After the scan they run one `schedule_rr` round when the best
key is `~0ULL`, else dispatch `best` if it is still RUNNABLE.

Strategy. The scan is an instance of `Xv6.Lib.BestSoFar` whose selection carries the values it
was chosen by (`ShortScan`). On one CPU nothing but the scan and the clock moves while the scan
runs, so the invariant holds of the table whenever the CPU is in the scan (`ShortOk`). A hinted
RUNNABLE process therefore rules out the `schedule_rr` fallback, and no process it ranks before is
dispatched (`shortest_dispatch_pick`).
-/

namespace Xv6.Sched

open Xv6.Lib

variable {n : Nat} {s s' : Kernel n}

/-! ## The ranking -/

/-- The order the scans rank candidates by: key, then `ctime`, then pid, each strictly. -/
def Ranked (a b : UInt64 × UInt64 × Int) : Prop :=
  a.1 < b.1 ∨ (a.1 = b.1 ∧ (a.2.1 < b.2.1 ∨ (a.2.1 = b.2.1 ∧ a.2.2 < b.2.2)))

instance : DecidableRel Ranked := fun _ _ => inferInstanceAs (Decidable (_ ∨ _))

/-- The place of a process in the ranking by `key`. -/
def rankBy (key : Proc → UInt64) (p : Proc) : UInt64 × UInt64 × Int :=
  (key p, p.ctime, p.pid)

theorem ranked_trans (a b c : UInt64 × UInt64 × Int) (hab : Ranked a b) (hbc : Ranked b c) :
    Ranked a c := by
  obtain ⟨a₁, a₂, a₃⟩ := a
  obtain ⟨b₁, b₂, b₃⟩ := b
  obtain ⟨c₁, c₂, c₃⟩ := c
  simp only [Ranked, UInt64.lt_iff_toNat_lt, ← UInt64.toNat_inj] at *
  omega

theorem ranked_irrefl (a : UInt64 × UInt64 × Int) : ¬ Ranked a a := by
  obtain ⟨a₁, a₂, a₃⟩ := a
  simp [Ranked]

/-- A smaller key keeps a process ranked before another. -/
theorem Ranked.of_key_le {k k' c : UInt64} {pid : Int} {b : UInt64 × UInt64 × Int} (hk : k' ≤ k)
    (h : Ranked (k, c, pid) b) : Ranked (k', c, pid) b := by
  obtain ⟨b₁, b₂, b₃⟩ := b
  simp only [Ranked, UInt64.lt_iff_toNat_lt, UInt64.le_iff_toNat_le, ← UInt64.toNat_inj] at *
  omega

/-- A key below `~0ULL` ranks before every process without a hint. -/
theorem ranked_noHint {k c c' : UInt64} {pid pid' : Int} (hk : k ≠ noHint) :
    Ranked (k, c, pid) (noHint, c', pid') := by
  have hmax : noHint.toNat = UInt64.size - 1 := rfl
  have hlt := k.toNat_lt_size
  have hne : k.toNat ≠ noHint.toNat := fun h => hk (UInt64.toNat_inj.mp h)
  exact .inl (show k < noHint from UInt64.lt_iff_toNat_lt.mpr (by omega))

theorem Best.consider_of_ranked {b : Best} {j : Fin NPROC} {key : UInt64} {p : Proc}
    (h : b.best = none ∨ Ranked (key, p.ctime, p.pid) (b.key, b.ctime, b.pid)) :
    b.consider j key p = ⟨some j, key, p.ctime, p.pid⟩ :=
  if_pos h

theorem Best.consider_of_not_ranked {b : Best} {j : Fin NPROC} {key : UInt64} {p : Proc}
    (h : ¬ (b.best = none ∨ Ranked (key, p.ctime, p.pid) (b.key, b.ctime, b.pid))) :
    b.consider j key p = b :=
  if_neg h

/-! ## The scan's invariant -/

/-- What the scan knows after the slots below `i`: the locals hold `best`'s place in the ranking
as the table has it, and no RUNNABLE slot read ranks before `best`. -/
def ShortScan (key : Proc → UInt64) (ps : Fin NPROC → Proc) (i : Nat) (b : Best) : Prop :=
  (∀ j, b.best = some j → (b.key, b.ctime, b.pid) = rankBy key (ps j)) ∧
    BestSoFar Ranked (fun k => (ps k).state = .runnable) (fun k => rankBy key (ps k)) Fin.val i
      b.best

theorem shortScan_init (key : Proc → UInt64) (ps : Fin NPROC → Proc) :
    ShortScan key ps 0 Best.init :=
  ⟨(fun _ h => by cases h), bestSoFar_zero⟩

/-- One iteration of the scan keeps its invariant. -/
theorem ShortScan.read {key : Proc → UInt64} {ps : Fin NPROC → Proc} {i : Nat} {b : Best}
    (h : ShortScan key ps i b) (j : Fin NPROC) (hj : j.val = i) :
    ShortScan key ps (i + 1)
      (if (ps j).state = .runnable then b.consider j (key (ps j)) (ps j) else b) := by
  obtain ⟨hval, hbest⟩ := h
  -- comparing with the locals is comparing with `best`'s own place in the ranking
  have hcmp : (b.best = none ∨ Ranked (rankBy key (ps j)) (b.key, b.ctime, b.pid)) ↔
      ∀ k, b.best = some k → Ranked (rankBy key (ps j)) (rankBy key (ps k)) := by
    constructor
    · rintro (hnone | hr) k hk
      · rw [hnone] at hk
        cases hk
      · rwa [← hval k hk]
    · intro hall
      cases hb : b.best with
      | none => exact .inl rfl
      | some k => exact .inr (by rw [hval k hb]; exact hall k hb)
  by_cases hrun : (ps j).state = .runnable
  · rw [if_pos hrun]
    by_cases hc : b.best = none ∨ Ranked (rankBy key (ps j)) (b.key, b.ctime, b.pid)
    · rw [Best.consider_of_ranked hc]
      refine ⟨fun k hk => by cases hk; rfl, hbest.read ranked_trans ranked_irrefl
        Fin.val_injective hj (fun _ => rfl) fun hnot => absurd ⟨hrun, hcmp.mp hc⟩ hnot⟩
    · rw [Best.consider_of_not_ranked hc]
      exact ⟨hval, hbest.read ranked_trans ranked_irrefl Fin.val_injective hj
        (fun hpick => absurd (hcmp.mpr hpick.2) hc) fun _ => rfl⟩
  · rw [if_neg hrun]
    exact ⟨hval, hbest.read ranked_trans ranked_irrefl Fin.val_injective hj
      (fun hpick => absurd hpick.1 hrun) fun _ => rfl⟩

/-- At the end of the scan `best` ranks no later than any RUNNABLE process, so a process with a
hint leaves a best key below `~0ULL`, and a process that ranks before another keeps `best` off it. -/
theorem ShortScan.best_of_runnable {key : Proc → UInt64} {ps : Fin NPROC → Proc} {i : Nat}
    {b : Best} (h : ShortScan key ps i b) (hi : NPROC ≤ i) {p : Fin NPROC}
    (hp : (ps p).state = .runnable) :
    ∃ j, b.best = some j ∧ (b.key, b.ctime, b.pid) = rankBy key (ps j) ∧
      ¬ Ranked (rankBy key (ps p)) (rankBy key (ps j)) := by
  obtain ⟨j, hj, hnot⟩ := h.2 p (by omega) hp
  exact ⟨j, hj, h.1 j hj, hnot⟩

/-! ## The two members -/

/-- The members of the family `schedule_sjf`, `schedule_stcf`: the policy, the key, the scan's
program counter and the code after the `swtch`. -/
inductive Shortest where
  | sjf
  | stcf
  deriving DecidableEq, Repr

namespace Shortest

def pol : Shortest → SchedPolicy
  | sjf => .sjf
  | stcf => .stcf

def key : Shortest → Proc → UInt64
  | sjf => sjfKey
  | stcf => stcfKey

def pc : Shortest → Nat → Best → SchedPc
  | sjf => .sjf
  | stcf => .stcf

def ret : Shortest → Ret
  | sjf => .sjf
  | stcf => .stcf

theorem entry_pol (m : Shortest) (t : UInt64) : entry m.pol t = m.pc 0 Best.init := by
  cases m <;> rfl

theorem pc_inj (m : Shortest) {i i' : Nat} {b b' : Best} :
    m.pc i b = m.pc i' b' ↔ i = i' ∧ b = b' := by
  cases m <;> simp [pc]

theorem pc_ne_top (m : Shortest) (i : Nat) (b : Best) : m.pc i b ≠ .top := by
  cases m <;> simp [pc]

theorem pc_ne_rr (m : Shortest) (i j : Nat) (b : Best) : m.pc i b ≠ .rr j := by
  cases m <;> simp [pc]

theorem pc_ne_run (m : Shortest) (i : Nat) (b : Best) (k : Ret) : m.pc i b ≠ .run k := by
  cases m <;> simp [pc]

theorem next_ne_pc (m : Shortest) (k : Ret) (i : Nat) (b : Best) : k.next ≠ m.pc i b := by
  cases k <;> cases m <;> simp [Ret.next, pc]

/-- The keys read `expected_runtime` and `time_left` only. -/
theorem key_congr (m : Shortest) {p p' : Proc} (her : p'.expectedRuntime = p.expectedRuntime)
    (htl : p'.timeLeft = p.timeLeft) : m.key p' = m.key p := by
  cases m <;> simp [key, sjfKey, stcfKey, her, htl]

/-- Under the member's policy the scheduler thread of an idle CPU calls the member, is inside its
scan, or is inside a `schedule_rr` round. -/
theorem schedStep_cases (m : Shortest) {c : Fin n} {pc : SchedPc} (hok : CpuOk m.pol ⟨none, pc⟩)
    (h : schedStep m.pol s c pc = some s') :
    (pc = .top ∧ s' = s.setPc c (m.pc 0 Best.init)) ∨
    (∃ i b, pc = m.pc i b ∧ shortestStep m.key m.pc m.ret s c i b = some s') ∨
    (∃ i, pc = .rr i ∧ rrStep s c i = some s') := by
  cases pc with
  | top => exact .inl ⟨rfl, by rw [← m.entry_pol]; exact (Option.some.inj h).symm⟩
  | rr i => exact .inr (.inr ⟨i, rfl, h⟩)
  | sjf i b =>
    cases m with
    | sjf => exact .inr (.inl ⟨i, b, rfl, h⟩)
    | stcf => simp [CpuOk, pol] at hok
  | stcf i b =>
    cases m with
    | sjf => simp [CpuOk, pol] at hok
    | stcf => exact .inr (.inl ⟨i, b, rfl, h⟩)
  | run k => cases h
  | _ => cases m <;> simp [CpuOk, pol] at hok

/-- Under the member's policy a dispatch by an idle CPU is of the scan's `best`, with a key below
`~0ULL`, or happens inside a `schedule_rr` round. -/
theorem dispatch_cases (m : Shortest) {c : Fin n} {pc : SchedPc} (hok : CpuOk m.pol ⟨none, pc⟩)
    (h : schedStep m.pol s c pc = some s') {q : Fin NPROC} (hd : Dispatches s s' q) :
    (∃ i b, pc = m.pc i b ∧ NPROC ≤ i ∧ b.best = some q) ∨ (∃ i, pc = .rr i) := by
  rcases m.schedStep_cases hok h with ⟨-, rfl⟩ | ⟨i, b, rfl, hs⟩ | ⟨i, rfl, -⟩
  · exact absurd hd (not_dispatches_setPc _ _ _)
  · rcases shortestStep_cases hs with ⟨j, -, -, rfl⟩ | ⟨-, -, rfl⟩ | ⟨-, -, -, rfl⟩ |
      ⟨-, -, -, rfl⟩ | ⟨hi, j, hb, -, -, -, rfl⟩
    · exact absurd hd (not_dispatches_setPc _ _ _)
    · exact absurd hd (not_dispatches_setPc _ _ _)
    · exact absurd hd (not_dispatches_setPc _ _ _)
    · exact absurd hd (not_dispatches_setPc _ _ _)
    · obtain rfl := dispatches_dispatch hd
      exact .inl ⟨i, b, rfl, hi, hb⟩
  · exact .inr ⟨i, rfl⟩

end Shortest

/-! ## The scan on one CPU -/

/-- Whenever the CPU is inside the member's scan, the scan's invariant holds of the table. -/
def ShortOk (m : Shortest) (s : Kernel 1) : Prop :=
  ∀ i b, (s.cpus cpu0).pc = m.pc i b → ShortScan m.key s.procs i b

theorem shortOk_boot (m : Shortest) (t : UInt64) : ShortOk m (Kernel.boot t) :=
  fun i b h => absurd h.symm (m.pc_ne_top i b)

/-- Every step keeps the scan's invariant: the scan's own steps read one slot, nothing else moves
the table while the CPU is in the scan, and no other step enters the scan but at its start. -/
theorem ShortOk.step {m : Shortest} {s s' : Kernel 1} (hwf : Wf m.pol s) (hok : ShortOk m s)
    (h : Step m.pol s s') : ShortOk m s' := by
  obtain ⟨c, a, h⟩ := h
  obtain rfl := fin_one_eq_cpu0 c
  intro i b hpc
  rcases step_cases h with ⟨hidle, hs⟩ | ⟨chan, hguard, rfl⟩ | ⟨t, -, rfl⟩ | ⟨r, k, -, hk, hs⟩
  · have hcpu : s.cpus cpu0 = ⟨none, (s.cpus cpu0).pc⟩ := by rw [← hidle]
    rcases m.schedStep_cases (hcpu ▸ hwf.cpu_ok cpu0) hs with ⟨-, rfl⟩ | ⟨i₀, b₀, hpc₀, hs⟩ |
      ⟨i₀, -, hs⟩
    · -- the call of the member starts its scan
      simp only [Kernel.setPc_cpus, Function.update_self] at hpc
      obtain ⟨rfl, rfl⟩ := m.pc_inj.mp hpc
      exact shortScan_init _ _
    · rcases shortestStep_cases hs with ⟨j, hj, -, rfl⟩ | ⟨-, -, rfl⟩ | ⟨-, -, -, rfl⟩ |
        ⟨-, -, -, rfl⟩ | ⟨-, j, -, -, -, -, rfl⟩
      · simp only [Kernel.setPc_cpus, Function.update_self] at hpc
        obtain ⟨rfl, rfl⟩ := m.pc_inj.mp hpc
        exact (hok i₀ b₀ hpc₀).read j hj
      · simp only [Kernel.setPc_cpus, Function.update_self] at hpc
        exact absurd hpc.symm (m.pc_ne_top i b)
      · simp only [Kernel.setPc_cpus, Function.update_self] at hpc
        exact absurd hpc.symm (m.pc_ne_rr i 0 b)
      · simp only [Kernel.setPc_cpus, Function.update_self] at hpc
        exact absurd hpc.symm (m.pc_ne_top i b)
      · simp only [Kernel.dispatch_cpus, Function.update_self] at hpc
        exact absurd hpc.symm (m.pc_ne_run i b _)
    · rcases rrStep_cases hs with ⟨j, -, -, -, rfl⟩ | ⟨j, -, -, -, rfl⟩ | ⟨-, rfl⟩
      · simp only [Kernel.dispatch_cpus, Function.update_self] at hpc
        exact absurd hpc.symm (m.pc_ne_run i b _)
      · simp only [Kernel.setPc_cpus, Function.update_self] at hpc
        exact absurd hpc.symm (m.pc_ne_rr i _ b)
      · simp only [Kernel.setPc_cpus, Function.update_self] at hpc
        exact absurd hpc.symm (m.pc_ne_top i b)
  · -- a wakeup needs a running process or the head of `scheduler()`, not a scan
    exfalso
    have hproc := CpuOk.proc_eq_none (hwf.cpu_ok cpu0)
      (fun k hk => m.pc_ne_run i b k (hpc.symm.trans hk))
    rcases hguard with hguard | hguard
    · exact hguard hproc
    · exact m.pc_ne_top i b (hpc.symm.trans hguard)
  · exact hok i b hpc
  · -- the CPU stays parked in `swtch` or goes on after it, never into a scan
    rcases (procStep_cpus hs).2 with hcpus | hcpus
    · rw [hcpus, hk] at hpc
      exact absurd hpc.symm (m.pc_ne_run i b k)
    · rw [hcpus, Function.update_self] at hpc
      exact absurd hpc (m.next_ne_pc k i b)

theorem shortOk_of_reachable {m : Shortest} {s : Kernel 1} (h : Reachable m.pol s) :
    ShortOk m s := by
  induction h with
  | boot t => exact shortOk_boot m t
  | step hr hs ih => exact ih.step (wf_of_reachable hr) hs

/-! ## What a step does to the keys -/

/-- The scheduler thread is inside a `schedule_rr` round: at a slot, or parked in `swtch` there. -/
def SchedPc.inRr : SchedPc → Bool
  | .rr _ => true
  | .run (.rr _) => true
  | _ => false

/-- `setexpected` or `setstcfvals`. -/
def Act.isHint : Act → Bool
  | .setexpected _ => true
  | .setstcfvals _ => true
  | _ => false

/-- A step in which the process in slot `p` makes no `setexpected` or `setstcfvals` call. -/
def StepNoHint (pol : SchedPolicy) (p : Fin NPROC) (s s' : Kernel n) : Prop :=
  ∃ c a, step pol s c a = some s' ∧ ((s.cpus c).proc = some p → a.isHint = false)

theorem StepNoHint.step {pol : SchedPolicy} {p : Fin NPROC} (h : StepNoHint pol p s s') :
    Step pol s s' :=
  let ⟨c, a, h, _⟩ := h
  ⟨c, a, h⟩

/-- A list of steps without hint calls leads through a run without hint calls. -/
theorem isChain_trace_noHint (pol : SchedPolicy) (p : Fin NPROC) (s : Kernel n)
    {acts : List (Fin n × Act)} (h : ∀ x ∈ acts, x.2.isHint = false) :
    (s :: trace pol s acts).IsChain (StepNoHint pol p) := by
  induction acts generalizing s with
  | nil => exact List.isChain_singleton s
  | cons x acts ih =>
    obtain ⟨c, a⟩ := x
    simp only [trace]
    split
    · rename_i s' hs
      refine List.IsChain.cons_cons ⟨c, a, hs, fun _ => h (c, a) (by simp)⟩ (ih s' ?_)
      exact fun x hx => h x (List.mem_cons_of_mem _ hx)
    · exact List.isChain_singleton s

/-- A slot whose process does not run in a step, and keeps its pid, keeps its keys and its creation
time: every step that writes them runs the process, frees the slot, or gives it a new pid. -/
theorem SlotStep.keys_of_idle {c : Fin n} {a : Act} {j : Fin NPROC}
    (hrun : ∀ c r, (s.cpus c).proc = some r → (s.procs r).state = .running)
    (h : SlotStep s s' c a j) (hj : (s.procs j).state ≠ .running)
    (hj' : (s'.procs j).state ≠ .running) (hpid : (s'.procs j).pid = (s.procs j).pid)
    (hpos : 0 < (s.procs j).pid) (hlt : (s.procs j).pid < s.nextpid) :
    (s'.procs j).expectedRuntime = (s.procs j).expectedRuntime ∧
      (s'.procs j).timeLeft = (s.procs j).timeLeft ∧ (s'.procs j).ctime = (s.procs j).ctime := by
  cases h with
  | same h => simp [h]
  | dispatch _ h | dispatchMlfq _ h => exact absurd (by simp [h]) hj'
  | age q _ _ _ h | relink par st _ _ h | kill pid _ h => simp [h]
  | yield k pc hc _ | sleep k pc chan hc _ | exit k pc par status hc _ =>
    exact absurd (hrun c j hc) hj
  | setexpected arg _ hc _ | setstcfvals arg _ hc _ | tick hc _ => exact absurd (hrun c j hc) hj
  | reap r _ _ _ h | forkFail q _ _ h =>
    -- `freeproc` clears the pid
    rw [h] at hpid
    simp only [Proc.freeproc] at hpid
    omega
  | fork r _ _ _ h =>
    -- the slot gets the next pid
    rw [h] at hpid
    simp only [Proc.allocInit, Proc.allocStart] at hpid
    omega

/-- A ready process that makes no hint call keeps its hint. -/
theorem SlotStep.expectedRuntime_of_ready {c : Fin n} {a : Act} {j : Fin NPROC}
    (h : SlotStep s s' c a j) (hj : Ready (s.procs j))
    (hnh : (s.cpus c).proc = some j → a.isHint = false) :
    (s'.procs j).expectedRuntime = (s.procs j).expectedRuntime := by
  have hnot : (s.procs j).state ≠ .unused ∧ (s.procs j).state ≠ .zombie := by
    rcases hj with hj | hj <;> simp [hj]
  cases h with
  | same h | age q _ _ _ h | relink par st _ _ h | kill pid _ h => rw [h]
  | dispatch _ h => rw [h, Proc.dispatch_frame]
  | dispatchMlfq _ h => rw [h, Proc.dispatchMlfq_frame]
  | yield k pc hc h | sleep k pc chan hc h => rw [afterSwtch_frame h]
  | exit k pc par status hc h =>
    rw [afterSwtch_frame h]
    rfl
  | reap r _ _ hzombie _ => exact absurd hzombie hnot.2
  | fork r _ hunused _ _ | forkFail q hunused _ _ => exact absurd hunused hnot.1
  | setexpected arg ha hc _ | setstcfvals arg ha hc _ =>
    have := hnh hc
    simp [ha, Act.isHint] at this
  | tick hc h =>
    rw [h]
    unfold Proc.tick
    split <;> rfl

/-! ## A process ranked first is not overtaken -/

theorem ne_noHint_of_le {k k' : UInt64} (h : k' ≤ k) (hk : k ≠ noHint) : k' ≠ noHint := by
  have hmax : noHint.toNat = UInt64.size - 1 := rfl
  have hlt := k.toNat_lt_size
  have hne : k.toNat ≠ noHint.toNat := fun h => hk (UInt64.toNat_inj.mp h)
  intro h'
  rw [UInt64.le_iff_toNat_le, h'] at h
  omega

theorem Shortest.inRr_pc (m : Shortest) (i : Nat) (b : Best) : (m.pc i b).inRr = false := by
  cases m <;> rfl

theorem Shortest.inRr_ret (m : Shortest) : (SchedPc.run m.ret).inRr = false := by
  cases m <;> rfl

/-- Leaving `swtch` outside a `schedule_rr` round does not enter one. -/
theorem Ret.inRr_next {k : Ret} (h : (SchedPc.run k).inRr = false) : k.next.inRr = false := by
  cases k <;> simp_all [SchedPc.inRr, Ret.next]

/-- Along a run of the member on one CPU: `p` is ready, has a hint, and ranks before `rq`, the
place `q` had; while slot `q` holds the process with `q`'s pid, that process does not run and
keeps its place; that pid is positive and below `nextpid`; and the CPU is not inside a
`schedule_rr` round. -/
structure ShortRun (m : Shortest) (p q : Fin NPROC) (rq : UInt64 × UInt64 × Int) (s : Kernel 1) :
    Prop where
  ready : Ready (s.procs p)
  hinted : m.key (s.procs p) ≠ noHint
  ranked : Ranked (rankBy m.key (s.procs p)) rq
  q_idle : (s.procs q).pid = rq.2.2 →
    (s.procs q).state ≠ .running ∧ rankBy m.key (s.procs q) = rq
  pid_lt : rq.2.2 < s.nextpid
  pid_pos : 0 < rq.2.2
  no_round : (s.cpus cpu0).pc.inRr = false

section ShortRun

variable {m : Shortest} {p q : Fin NPROC} {rq : UInt64 × UInt64 × Int} {s s' : Kernel 1}

/-- The process with `q`'s pid is not dispatched: the scan's `best` would rank before `p`, which
the scan has read RUNNABLE, and no `schedule_rr` round runs. -/
theorem ShortRun.not_dispatches (hwf : Wf m.pol s) (hok : ShortOk m s)
    (hinv : ShortRun m p q rq s) (h : Step m.pol s s') (hpid : (s.procs q).pid = rq.2.2) :
    ¬ Dispatches s s' q := by
  intro hd
  obtain ⟨c, a, h⟩ := h
  obtain rfl := fin_one_eq_cpu0 c
  obtain ⟨hidle, hs⟩ := step_dispatches h hd
  have hcpu : s.cpus cpu0 = ⟨none, (s.cpus cpu0).pc⟩ := by rw [← hidle]
  rcases m.dispatch_cases (hcpu ▸ hwf.cpu_ok cpu0) hs hd with ⟨i, b, hpc, hi, hb⟩ | ⟨i, hpc⟩
  · obtain ⟨j, hj, -, hnot⟩ := (hok i b hpc).best_of_runnable hi
      (hwf.excl.runnable_of_idle hidle hinv.ready)
    obtain rfl : j = q := Option.some.inj (hj.symm.trans hb)
    exact hnot ((hinv.q_idle hpid).2 ▸ hinv.ranked)
  · have hround := hinv.no_round
    rw [hpc] at hround
    cases hround

/-- No step enters a `schedule_rr` round: the scan has read `p`, whose key is below `~0ULL`. -/
theorem ShortRun.no_round_step (hwf : Wf m.pol s) (hok : ShortOk m s)
    (hinv : ShortRun m p q rq s) (h : Step m.pol s s') : (s'.cpus cpu0).pc.inRr = false := by
  obtain ⟨c, a, h⟩ := h
  obtain rfl := fin_one_eq_cpu0 c
  rcases step_cases h with ⟨hidle, hs⟩ | ⟨chan, -, rfl⟩ | ⟨t, -, rfl⟩ | ⟨r, k, -, hk, hs⟩
  · have hcpu : s.cpus cpu0 = ⟨none, (s.cpus cpu0).pc⟩ := by rw [← hidle]
    rcases m.schedStep_cases (hcpu ▸ hwf.cpu_ok cpu0) hs with ⟨-, rfl⟩ | ⟨i, b, hpc, hs⟩ |
      ⟨i, hpc, -⟩
    · simpa using m.inRr_pc 0 Best.init
    · rcases shortestStep_cases hs with ⟨j, -, -, rfl⟩ | ⟨-, -, rfl⟩ | ⟨hi, -, hkey, rfl⟩ |
        ⟨-, -, -, rfl⟩ | ⟨-, j, -, -, -, -, rfl⟩
      · simpa using m.inRr_pc _ _
      · rfl
      · -- `best` ranks no later than `p`, so its key is below `~0ULL`
        exfalso
        obtain ⟨j, -, hval, hnot⟩ := (hok i b hpc).best_of_runnable hi
          (hwf.excl.runnable_of_idle hidle hinv.ready)
        rw [← hval, hkey] at hnot
        exact hnot (ranked_noHint hinv.hinted)
      · rfl
      · simpa using m.inRr_ret
    · have hround := hinv.no_round
      rw [hpc] at hround
      cases hround
  · exact hinv.no_round
  · exact hinv.no_round
  · rcases (procStep_cpus hs).2 with hcpus | hcpus
    · rw [hcpus]
      exact hinv.no_round
    · have hround := hinv.no_round
      rw [hk] at hround
      rw [hcpus, Function.update_self]
      exact Ret.inRr_next hround

/-- A step in which `p` neither sleeps nor exits and its key does not grow keeps `ShortRun`. -/
theorem ShortRun.step (hwf : Wf m.pol s) (hok : ShortOk m s) (hinv : ShortRun m p q rq s)
    (h : Step m.pol s s') (hsl : (s'.procs p).state ≠ .sleeping)
    (hz : (s'.procs p).state ≠ .zombie) (hkey : m.key (s'.procs p) ≤ m.key (s.procs p)) :
    ShortRun m p q rq s' := by
  obtain ⟨c, a, hs⟩ := h
  have hsp := step_slotStep hs p
  have hready' := hsp.ready hinv.ready hsl hz
  obtain ⟨hct, hpid⟩ := hsp.ident_of_ready hwf.excl.running_of_proc hinv.ready hready'
  refine ⟨hready', ne_noHint_of_le hkey hinv.hinted, ?_, ?_, ?_, hinv.pid_pos,
    hinv.no_round_step hwf hok ⟨c, a, hs⟩⟩
  · -- `p` keeps its creation time and pid, and its key does not grow
    have hr := hinv.ranked
    simp only [rankBy, hct, hpid] at hr ⊢
    exact Ranked.of_key_le hkey hr
  · intro hpid'
    rcases (step_slotStep hs q).ident hwf.excl.running_of_proc with
      ⟨-, hpidq, -⟩ | ⟨-, -, hzero⟩ | ⟨-, -, -, hnew, -⟩
    · have hpidq₀ : (s.procs q).pid = rq.2.2 := hpidq ▸ hpid'
      obtain ⟨hnr, hrank⟩ := hinv.q_idle hpidq₀
      have hnr' : (s'.procs q).state ≠ .running :=
        fun hr => hinv.not_dispatches hwf hok ⟨c, a, hs⟩ hpidq₀ ⟨hnr, hr⟩
      obtain ⟨her, htl, hct'⟩ := (step_slotStep hs q).keys_of_idle hwf.excl.running_of_proc hnr
        hnr' hpidq (hpidq₀ ▸ hinv.pid_pos) (hpidq₀ ▸ hinv.pid_lt)
      refine ⟨hnr', ?_⟩
      rw [← hrank]
      simp only [rankBy, m.key_congr her htl, hct', hpidq]
    · have := hinv.pid_pos
      omega
    · have := hinv.pid_lt
      omega
  · have hlt := hinv.pid_lt
    rcases step_nextpid hs with hnext | hnext <;> rw [hnext] <;> omega

end ShortRun

/-- Under SJF or STCF on one CPU, take a state outside a `schedule_rr` round with `p` and `q`
RUNNABLE, `p` hinted and ranked before `q`. Along any run from there in which `p` neither sleeps
nor exits and its key does not grow, the process with `q`'s pid is never dispatched. -/
theorem shortest_order (m : Shortest) {s₀ : Kernel 1} {l : List (Kernel 1)}
    (hs₀ : Reachable m.pol s₀) (hl : (s₀ :: l).IsChain (Step m.pol)) (p q : Fin NPROC)
    (hp : (s₀.procs p).state = .runnable) (hq : (s₀.procs q).state = .runnable)
    (hkp : m.key (s₀.procs p) ≠ noHint)
    (hrank : Ranked (rankBy m.key (s₀.procs p)) (rankBy m.key (s₀.procs q)))
    (hround : (s₀.cpus cpu0).pc.inRr = false)
    (hstay : ∀ s ∈ s₀ :: l, (s.procs p).state ≠ .sleeping ∧ (s.procs p).state ≠ .zombie)
    (hkey : ∀ st ∈ adj (s₀ :: l), m.key (st.2.procs p) ≤ m.key (st.1.procs p)) :
    ∀ st ∈ adj (s₀ :: l), (st.1.procs q).pid = (s₀.procs q).pid → ¬ Dispatches st.1 st.2 q := by
  have hreach := reachable_of_run (fun _ _ h => h) hs₀ hl
  have hwf₀ := wf_of_reachable hs₀
  -- the run's steps, with the key of `p` not growing
  have hR : (s₀ :: l).IsChain fun x y => Step m.pol x y ∧ m.key (y.procs p) ≤ m.key (x.procs p) :=
    isChain_of_forall_adj fun x y hxy => ⟨IsChain.rel_of_mem_adj hl hxy, hkey (x, y) hxy⟩
  have hH : ∀ s ∈ s₀ :: l, ((s.procs p).state ≠ .sleeping ∧ (s.procs p).state ≠ .zombie) ∧
      Reachable m.pol s := fun s hs => ⟨hstay s hs, hreach s hs⟩
  have h₀ : ShortRun m p q (rankBy m.key (s₀.procs q)) s₀ := by
    refine ⟨.inl hp, hkp, hrank, fun _ => ⟨by simp [hq], rfl⟩, hwf₀.pid_lt q, ?_, hround⟩
    rcases hwf₀.pid_pos q with hu | hpos
    · simp [hq] at hu
    · exact hpos
  have hinv : ∀ s ∈ s₀ :: l, ShortRun m p q (rankBy m.key (s₀.procs q)) s := by
    refine IsChain.forall_of_guard hR hH h₀ ?_
    intro s s' ⟨hs, hk⟩ ⟨_, hr⟩ ⟨⟨hsl, hz⟩, _⟩ hinv
    exact hinv.step (wf_of_reachable hr) (shortOk_of_reachable hr) hs hsl hz hk
  intro st hst hpid
  have hx := (mem_of_mem_adj hst).1
  exact (hinv st.1 hx).not_dispatches (wf_of_reachable (hreach st.1 hx))
    (shortOk_of_reachable (hreach st.1 hx)) (IsChain.rel_of_mem_adj hl hst) hpid

end Xv6.Sched
