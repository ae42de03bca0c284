import Xv6.Sched.Stcf
import Xv6.Sched.Mlfq
import Xv6.Lib.Run

/-!
# Xv6.Sched.Pick — what one pass of a scan picks, on one CPU

On one CPU nothing moves the process table while the scheduler thread scans it, so a pass of
`schedule_sjf`, `schedule_stcf` or a level of `schedule_mlfq` is a function of the table. The
pass ends by dispatching the first of the best RUNNABLE candidates, the best by the strict order
the scan compares with (`FirstSoFar` of `Xv6.Lib.Scan`, beside `BestSoFar`).

For `schedule_sjf` and `schedule_stcf` the candidate's key decides between the dispatch and a
`schedule_rr` round: the round runs exactly when every RUNNABLE process has the key `~0ULL`
(`shortest_dispatches_first_least`). The test is on the key and not on the hint, so under STCF a
hinted process whose `time_left` has wrapped to `~0ULL` gets the round meant for processes without
a hint (`stcf_pass_rr_with_hint`). `schedule_mlfq` dispatches from the lowest level with a
RUNNABLE process, the earliest `ltime` there; the candidate it holds locked is RUNNABLE when its
scan ends, so the `break` that leaks the lock is never taken (`mlfq_dispatches_first_least`, for
tables whose RUNNABLE levels are the three the scans read, as every reachable table's are:
`mlfq_dispatches_least_reachable`).
-/

namespace Xv6.Sched

open Xv6.Lib

variable {n : Nat}

/-- `k` steps of CPU `c`'s scheduler thread with nothing else running. -/
def schedRun (pol : SchedPolicy) (c : Fin n) (k : Nat) (s : Kernel n) : Option (Kernel n) :=
  iterateSome (fun s => step pol s c .sched) k s

theorem schedRun_add (pol : SchedPolicy) (c : Fin n) (k l : Nat) (s : Kernel n) :
    schedRun pol c (k + l) s = (schedRun pol c k s).bind (schedRun pol c l) :=
  iterateSome_add _ k l s

theorem schedRun_one (pol : SchedPolicy) (c : Fin n) (s : Kernel n) :
    schedRun pol c 1 s = step pol s c .sched := by
  simp [schedRun, iterateSome]

@[simp] theorem Kernel.setPc_setPc (s : Kernel n) (c : Fin n) (x y : SchedPc) :
    (s.setPc c x).setPc c y = s.setPc c y := by
  simp [Kernel.setPc, Kernel.setCpu, Function.update_idem]

@[simp] theorem Kernel.dispatch_setPc (s : Kernel n) (c : Fin n) (x : SchedPc) (j : Fin NPROC)
    (p : Proc) (k : Ret) : (s.setPc c x).dispatch c j p k = s.dispatch c j p k := by
  simp [Kernel.dispatch, Kernel.setPc, Kernel.setCpu, Kernel.setProc, Function.update_idem]

theorem Kernel.setPc_eq_self {s : Kernel n} {c : Fin n} {pc : SchedPc} (h : (s.cpus c).pc = pc) :
    s.setPc c pc = s := by
  subst h
  simp [Kernel.setPc, Kernel.setCpu]

/-- On one CPU no other scheduler thread holds a lock. -/
theorem not_lockedElsewhere_uni (s : Kernel 1) (j : Fin NPROC) : ¬ s.lockedElsewhere cpu0 j :=
  fun ⟨c', hc', _⟩ => hc' (fin_one_eq_cpu0 c')

/-- The scheduler step of an idle CPU is the step of its scheduler thread's program counter. -/
theorem step_sched_idle {s : Kernel n} {c : Fin n} {pc : SchedPc} (pol : SchedPolicy)
    (hc : s.cpus c = ⟨none, pc⟩) : step pol s c .sched = schedStep pol s c pc := by
  simp [step, hc]

theorem step_sched_setPc (pol : SchedPolicy) {s : Kernel n} {c : Fin n}
    (hproc : (s.cpus c).proc = none) (pc : SchedPc) :
    step pol (s.setPc c pc) c .sched = schedStep pol (s.setPc c pc) c pc :=
  step_sched_idle pol (by rw [Kernel.setPc_cpus, Function.update_self, ← hproc])

/-! ## The scans of `schedule_sjf` and `schedule_stcf` -/

/-- Ranking is a strict order in which a process is ranked before every other or after `b`. -/
theorem ranked_split (a b c : UInt64 × UInt64 × Int) (h : Ranked a b) : Ranked a c ∨ Ranked c b := by
  obtain ⟨a₁, a₂, a₃⟩ := a
  obtain ⟨b₁, b₂, b₃⟩ := b
  obtain ⟨c₁, c₂, c₃⟩ := c
  simp only [Ranked, UInt64.lt_iff_toNat_lt, ← UInt64.toNat_inj] at *
  omega

/-- The scan's locals hold the first of the best RUNNABLE slots read. -/
def ShortFirst (key : Proc → UInt64) (ps : Fin NPROC → Proc) (i : Nat) (b : Best) : Prop :=
  FirstSoFar Ranked (fun k => (ps k).state = .runnable) (fun k => rankBy key (ps k)) Fin.val i
    b.best

/-- Comparing with the locals is comparing with `best`'s own place in the ranking. -/
theorem ShortScan.consider_iff {key : Proc → UInt64} {ps : Fin NPROC → Proc} {i : Nat} {b : Best}
    (h : ShortScan key ps i b) (p : Proc) :
    (b.best = none ∨ Ranked (rankBy key p) (b.key, b.ctime, b.pid)) ↔
      ∀ k, b.best = some k → Ranked (rankBy key p) (rankBy key (ps k)) := by
  constructor
  · rintro (hnone | hr) k hk
    · rw [hnone] at hk
      cases hk
    · rwa [← h.1 k hk]
  · intro hall
    cases hb : b.best with
    | none => exact .inl rfl
    | some k => exact .inr (by rw [h.1 k hb]; exact hall k hb)

theorem ShortFirst.read {key : Proc → UInt64} {ps : Fin NPROC → Proc} {i : Nat} {b : Best}
    (h : ShortFirst key ps i b) (hs : ShortScan key ps i b) (j : Fin NPROC) (hj : j.val = i) :
    ShortFirst key ps (i + 1)
      (if (ps j).state = .runnable then b.consider j (key (ps j)) (ps j) else b) := by
  have hcmp := hs.consider_iff (ps j)
  refine FirstSoFar.read ranked_split h hs.2 hj (fun hpick => ?_) (fun hpick => ?_)
  · rw [if_pos hpick.1, Best.consider_of_ranked (hcmp.mpr hpick.2)]
  · by_cases hrun : (ps j).state = .runnable
    · rw [if_pos hrun, Best.consider_of_not_ranked fun hc => hpick ⟨hrun, hcmp.mp hc⟩]
    · rw [if_neg hrun]

/-- `~0ULL` is the greatest key. -/
theorem eq_noHint_of_not_lt {k : UInt64} (h : ¬ k < noHint) : k = noHint := by
  have hk : k.toNat < 2 ^ 64 := k.toNat_lt
  have hn : noHint.toNat = 2 ^ 64 - 1 := rfl
  rw [UInt64.lt_iff_toNat_lt, hn] at h
  exact UInt64.toNat_inj.mp (by omega)

namespace Shortest

theorem schedStep_pc (m : Shortest) (s : Kernel n) (c : Fin n) (i : Nat) (b : Best) :
    schedStep m.pol s c (m.pc i b) = shortestStep m.key m.pc m.ret s c i b := by
  cases m <;> rfl

/-- One turn of the scan on one CPU: lock slot `i` and consider it when it is RUNNABLE. -/
theorem scan_step (m : Shortest) {s : Kernel 1} (hproc : (s.cpus cpu0).proc = none) {i : Nat}
    (hi : i < NPROC) (b : Best) :
    step m.pol (s.setPc cpu0 (m.pc i b)) cpu0 .sched = some (s.setPc cpu0 (m.pc (i + 1)
      (if (s.procs ⟨i, hi⟩).state = .runnable then
        b.consider ⟨i, hi⟩ (m.key (s.procs ⟨i, hi⟩)) (s.procs ⟨i, hi⟩) else b))) := by
  rw [step_sched_setPc _ hproc, m.schedStep_pc]
  simp only [shortestStep, hi, dif_pos, not_lockedElsewhere_uni, if_false, Kernel.setPc_setPc,
    Kernel.setPc_procs]
  rfl

/-- The scan on one CPU reads every slot and ends with the first of the best RUNNABLE processes
in its locals. -/
theorem scan_run (m : Shortest) {s : Kernel 1} (hproc : (s.cpus cpu0).proc = none) :
    ∃ b, schedRun m.pol cpu0 NPROC (s.setPc cpu0 (m.pc 0 Best.init)) =
        some (s.setPc cpu0 (m.pc NPROC b)) ∧
      ShortScan m.key s.procs NPROC b ∧ ShortFirst m.key s.procs NPROC b := by
  -- each turn reads slot `i` into the locals and keeps both invariants
  have hstep : ∀ i b, i < NPROC → ShortScan m.key s.procs i b ∧ ShortFirst m.key s.procs i b →
      ∃ b', step m.pol (s.setPc cpu0 (m.pc i b)) cpu0 .sched =
          some (s.setPc cpu0 (m.pc (i + 1) b')) ∧
        ShortScan m.key s.procs (i + 1) b' ∧ ShortFirst m.key s.procs (i + 1) b' := by
    intro i b hi ⟨hs, hf⟩
    exact ⟨_, m.scan_step hproc hi b, hs.read ⟨i, hi⟩ rfl, hf.read hs ⟨i, hi⟩ rfl⟩
  exact iterateSome_count (fun i b => s.setPc cpu0 (m.pc i b))
    (fun i b => ShortScan m.key s.procs i b ∧ ShortFirst m.key s.procs i b) hstep NPROC 0
    Best.init (by omega) ⟨shortScan_init _ _, firstSoFar_zero⟩

end Shortest

/-- On one CPU, for every process table, a pass of `schedule_sjf` (`schedule_stcf`) returns when
no process is RUNNABLE. Otherwise it settles on the RUNNABLE process `j` that no RUNNABLE process
is ranked before by `(key, ctime, pid)`, and that is ranked before every RUNNABLE process at a
lower index; it runs a `schedule_rr` round exactly when `j`'s key is `~0ULL`, which is exactly
when every RUNNABLE process has that key, and dispatches `j` otherwise. -/
theorem shortest_dispatches_first_least (m : Shortest) {s : Kernel 1}
    (hc : s.cpus cpu0 = ⟨none, m.pc 0 Best.init⟩) :
    ((∀ q, (s.procs q).state ≠ .runnable) ∧
      schedRun m.pol cpu0 (NPROC + 1) s = some (s.setPc cpu0 .top)) ∨
    ∃ j, (s.procs j).state = .runnable ∧
      (∀ q, (s.procs q).state = .runnable →
        ¬ Ranked (rankBy m.key (s.procs q)) (rankBy m.key (s.procs j))) ∧
      (∀ q, (s.procs q).state = .runnable → q.val < j.val →
        Ranked (rankBy m.key (s.procs j)) (rankBy m.key (s.procs q))) ∧
      (m.key (s.procs j) = noHint ↔
        ∀ q, (s.procs q).state = .runnable → m.key (s.procs q) = noHint) ∧
      schedRun m.pol cpu0 (NPROC + 1) s =
        some (if m.key (s.procs j) = noHint then s.setPc cpu0 (.rr 0)
          else s.dispatch cpu0 j ((s.procs j).dispatch s.now) m.ret) := by
  have hproc : (s.cpus cpu0).proc = none := by rw [hc]
  obtain ⟨b, hrun, hs, hf⟩ := m.scan_run hproc
  rw [Kernel.setPc_eq_self (by rw [hc])] at hrun
  -- the last step of the pass, from the end of the scan
  have hlast : schedRun m.pol cpu0 (NPROC + 1) s =
      shortestStep m.key m.pc m.ret (s.setPc cpu0 (m.pc NPROC b)) cpu0 NPROC b := by
    rw [schedRun_add, hrun, Option.bind_some, schedRun_one, step_sched_setPc _ hproc,
      m.schedStep_pc]
  cases hb : b.best with
  | none =>
    -- no RUNNABLE slot was read, so there is none
    refine .inl ⟨fun q hq => ?_, ?_⟩
    · obtain ⟨j, hj, -⟩ := hs.2 q q.isLt hq
      rw [hb] at hj
      cases hj
    · rw [hlast]
      simp [shortestStep, hb]
  | some j =>
    obtain ⟨hrunj, -, hfirst⟩ := hf j hb
    have hkey : b.key = m.key (s.procs j) := congrArg Prod.fst (hs.1 j hb)
    have hleast : ∀ q, (s.procs q).state = .runnable →
        ¬ Ranked (rankBy m.key (s.procs q)) (rankBy m.key (s.procs j)) := fun q hq => by
      obtain ⟨j', hj', hnot⟩ := hs.2 q q.isLt hq
      rw [hb] at hj'
      obtain rfl := Option.some.inj hj'
      exact hnot
    refine .inr ⟨j, hrunj, hleast, fun q hq hlt => hfirst q hlt hq, ⟨fun hj q hq => ?_, fun hall =>
      hall j hrunj⟩, ?_⟩
    · -- no key lies above `~0ULL`
      apply eq_noHint_of_not_lt
      intro hlt
      apply hleast q hq
      left
      show m.key (s.procs q) < m.key (s.procs j)
      rw [hj]
      exact hlt
    · rw [hlast]
      by_cases hn : m.key (s.procs j) = noHint
      · rw [if_pos hn]
        simp [shortestStep, hb, hkey, hn]
      · rw [if_neg hn]
        simp [shortestStep, hb, hkey, hn, not_lockedElsewhere_uni, hrunj]

/-- Under SJF, the scheduler at the start of its first pass: init, without a hint, gets a
`schedule_rr` round. -/
example :
    let s := runTo .sjf (Kernel.boot 0) [(cpu0, .sched)]
    s.cpus cpu0 = ⟨none, Shortest.sjf.pc 0 Best.init⟩ ∧
      schedRun .sjf cpu0 (NPROC + 1) s = some (s.setPc cpu0 (.rr 0)) := by
  intro s
  have hc : s.cpus cpu0 = ⟨none, Shortest.sjf.pc 0 Best.init⟩ := by decide
  refine ⟨hc, ?_⟩
  have hnone : ∀ q, (s.procs q).state = .runnable → sjfKey (s.procs q) = noHint := by
    decide
  rcases shortest_dispatches_first_least .sjf hc with ⟨hall, -⟩ | ⟨j, hj, -, -, hiff, hrun⟩
  · exact absurd (by decide) (hall 0)
  · change schedRun Shortest.sjf.pol cpu0 (NPROC + 1) s = _
    rw [hrun, if_pos (hiff.mpr hnone)]

/-- `stcfWrapped` once init has yielded and the scheduler has entered `schedule_stcf` again. -/
def stcfWrappedPass : Kernel 1 :=
  runTo .stcf stcfWrapped [(cpu0, .yield), (cpu0, .sched)]

/-- Init is RUNNABLE with hint 5, but its `time_left` wrapped to `~0ULL`: the pass runs a
`schedule_rr` round rather than dispatch it. -/
theorem stcf_pass_rr_with_hint :
    Reachable .stcf stcfWrappedPass ∧
    stcfWrappedPass.cpus cpu0 = ⟨none, Shortest.stcf.pc 0 Best.init⟩ ∧
    (stcfWrappedPass.procs 0).state = .runnable ∧
    (stcfWrappedPass.procs 0).expectedRuntime = 5 ∧
    (schedRun .stcf cpu0 (NPROC + 1) stcfWrappedPass).map (fun s => (s.cpus cpu0).pc) =
      some (.rr 0) :=
  ⟨reachable_runTo (reachable_runTo (.boot 0) _) _, by decide⟩

/-! ## The level scans of `schedule_mlfq` -/

/-- The candidates of the level-`prty` scan: the RUNNABLE processes of that level. -/
def MlfqCand (ps : Fin NPROC → Proc) (prty : Nat) (k : Fin NPROC) : Prop :=
  (ps k).queueLevel = prty ∧ (ps k).state = .runnable

/-- What the level-`prty` scan knows after the slots below `i`: `min_p` is the first of the
RUNNABLE processes of the level read that have the earliest `ltime`. -/
def MlfqScan (ps : Fin NPROC → Proc) (prty i : Nat) (minP : Option (Fin NPROC)) : Prop :=
  BestSoFar (· < ·) (MlfqCand ps prty) (fun k => (ps k).ltime) Fin.val i minP ∧
    FirstSoFar (· < ·) (MlfqCand ps prty) (fun k => (ps k).ltime) Fin.val i minP

theorem mlfqScan_zero (ps : Fin NPROC → Proc) (prty : Nat) : MlfqScan ps prty 0 none :=
  ⟨bestSoFar_zero, firstSoFar_zero⟩

theorem uint64_lt_split (a b c : UInt64) (h : a < b) : a < c ∨ c < b := by
  simp only [UInt64.lt_iff_toNat_lt] at *
  omega

/-- One iteration of the level scan keeps its invariant. -/
theorem MlfqScan.read {ps : Fin NPROC → Proc} {prty i : Nat} {minP : Option (Fin NPROC)}
    (h : MlfqScan ps prty i minP) (j : Fin NPROC) (hj : j.val = i) :
    MlfqScan ps prty (i + 1) (if (ps j).queueLevel = prty ∧ (ps j).state = .runnable ∧
      minP.all (fun m => (ps j).ltime < (ps m).ltime) then some j else minP) := by
  -- the test of the source is the scan's: a candidate earlier than `min_p`
  have hpick : ((ps j).queueLevel = prty ∧ (ps j).state = .runnable ∧
      minP.all (fun m => (ps j).ltime < (ps m).ltime)) ↔
      (MlfqCand ps prty j ∧ ∀ k, minP = some k → (ps j).ltime < (ps k).ltime) := by
    simp only [MlfqCand, Option.all_eq_true, decide_eq_true_eq, and_assoc]
  have htrans : ∀ a b c : UInt64, a < b → b < c → a < c := fun _ _ _ => UInt64.lt_trans
  by_cases hp : MlfqCand ps prty j ∧ ∀ k, minP = some k → (ps j).ltime < (ps k).ltime
  · rw [if_pos (hpick.mpr hp)]
    exact ⟨h.1.read htrans UInt64.lt_irrefl Fin.val_injective hj (fun _ => rfl)
        fun hn => absurd hp hn,
      h.2.read uint64_lt_split h.1 hj (fun _ => rfl) fun hn => absurd hp hn⟩
  · rw [if_neg (mt hpick.mp hp)]
    exact ⟨h.1.read htrans UInt64.lt_irrefl Fin.val_injective hj (fun hp' => absurd hp' hp)
        fun _ => rfl,
      h.2.read uint64_lt_split h.1 hj (fun hp' => absurd hp' hp) fun _ => rfl⟩

/-- At the end of a level scan `min_p` is empty exactly when the level has no RUNNABLE process. -/
theorem MlfqScan.none_iff {ps : Fin NPROC → Proc} {prty : Nat} {minP : Option (Fin NPROC)}
    (h : MlfqScan ps prty NPROC minP) : minP = none ↔ ∀ q, ¬ MlfqCand ps prty q := by
  constructor
  · intro hnone q hq
    obtain ⟨j, hj, -⟩ := h.1 q q.isLt hq
    rw [hnone] at hj
    cases hj
  · intro hall
    cases hm : minP with
    | none => rfl
    | some j => exact absurd (h.2 j hm).1 (hall j)

/-- One turn of a level scan on one CPU: lock slot `i`; it becomes `min_p` when it is a RUNNABLE
process of the level with an earlier `ltime`. -/
theorem mlfq_scan_step {s : Kernel 1} {prty i : Nat} {minP : Option (Fin NPROC)}
    (hc : s.cpus cpu0 = ⟨none, .mlfq prty i minP⟩) (hi : i < NPROC) :
    step .mlfq s cpu0 .sched =
      some (s.setPc cpu0 (.mlfq prty (i + 1)
        (if (s.procs ⟨i, hi⟩).queueLevel = prty ∧ (s.procs ⟨i, hi⟩).state = .runnable ∧
            minP.all (fun m => (s.procs ⟨i, hi⟩).ltime < (s.procs m).ltime) then some ⟨i, hi⟩
          else minP))) := by
  rw [step_sched_idle _ hc]
  simp only [schedStep, mlfqStep, hi, dif_pos, not_lockedElsewhere_uni, if_false]
  split_ifs <;> rfl

/-- The scan of level `prty` reads every slot and ends with the first RUNNABLE process of the
level with the earliest `ltime` in `min_p`, holding its lock. -/
theorem mlfq_scan_run {s : Kernel 1} (hproc : (s.cpus cpu0).proc = none) (prty : Nat) :
    ∃ minP, schedRun .mlfq cpu0 NPROC (s.setPc cpu0 (.mlfq prty 0 none)) =
        some (s.setPc cpu0 (.mlfq prty NPROC minP)) ∧ MlfqScan s.procs prty NPROC minP := by
  have hstep : ∀ i minP, i < NPROC → MlfqScan s.procs prty i minP →
      ∃ minP', step .mlfq (s.setPc cpu0 (.mlfq prty i minP)) cpu0 .sched =
          some (s.setPc cpu0 (.mlfq prty (i + 1) minP')) ∧ MlfqScan s.procs prty (i + 1) minP' := by
    intro i minP hi h
    have hc : (s.setPc cpu0 (.mlfq prty i minP)).cpus cpu0 = ⟨none, .mlfq prty i minP⟩ := by
      simp [hproc]
    refine ⟨_, ?_, h.read ⟨i, hi⟩ rfl⟩
    rw [mlfq_scan_step hc hi, Kernel.setPc_setPc]
    rfl
  exact iterateSome_count (fun i minP => s.setPc cpu0 (.mlfq prty i minP)) (MlfqScan s.procs prty)
    hstep NPROC 0 none (by omega) (mlfqScan_zero _ _)

/-- A level scan that found nothing moves on to the next level. -/
theorem mlfq_scan_next {s : Kernel 1} (hproc : (s.cpus cpu0).proc = none) {prty : Nat}
    (hprty : prty < 2) :
    step .mlfq (s.setPc cpu0 (.mlfq prty NPROC none)) cpu0 .sched =
      some (s.setPc cpu0 (.mlfq (prty + 1) 0 none)) := by
  rw [step_sched_setPc _ hproc]
  simp [schedStep, mlfqStep, hprty]

/-- After level 2 with nothing found, `schedule_mlfq` returns to `scheduler()`. -/
theorem mlfq_scan_last {s : Kernel 1} (hproc : (s.cpus cpu0).proc = none) :
    step .mlfq (s.setPc cpu0 (.mlfq 2 NPROC none)) cpu0 .sched = some (s.setPc cpu0 .top) := by
  rw [step_sched_setPc _ hproc]
  simp [schedStep, mlfqStep]

/-- A level scan that ends holding a RUNNABLE `min_p` dispatches it. -/
theorem mlfq_scan_dispatch {s : Kernel 1} (hproc : (s.cpus cpu0).proc = none) {prty : Nat}
    {j : Fin NPROC} (hj : (s.procs j).state = .runnable) :
    step .mlfq (s.setPc cpu0 (.mlfq prty NPROC (some j))) cpu0 .sched =
      some (s.dispatch cpu0 j ((s.procs j).dispatchMlfq s.now) .mlfq) := by
  rw [step_sched_setPc _ hproc]
  simp [schedStep, mlfqStep, hj]

/-- The levels below `l`, none of which has a RUNNABLE process, take `NPROC + 1` steps each. -/
theorem mlfq_levels_run {s : Kernel 1} (hproc : (s.cpus cpu0).proc = none) (l : Nat) :
    l ≤ 2 → (∀ l' < l, ∀ q, ¬ MlfqCand s.procs l' q) →
      schedRun .mlfq cpu0 (l * (NPROC + 1)) (s.setPc cpu0 (.mlfq 0 0 none)) =
        some (s.setPc cpu0 (.mlfq l 0 none)) := by
  induction l with
  | zero =>
    intro _ _
    rw [Nat.zero_mul]
    rfl
  | succ l ih =>
    intro hl hbelow
    have hrun := ih (by omega) fun l' hl' => hbelow l' (by omega)
    obtain ⟨minP, hscan, hinv⟩ := mlfq_scan_run hproc l
    obtain rfl : minP = none := hinv.none_iff.mpr (hbelow l (by omega))
    rw [Nat.succ_mul, ← Nat.add_assoc, schedRun_add,
      schedRun_add, hrun, Option.bind_some, hscan, Option.bind_some, schedRun_one,
      mlfq_scan_next hproc (by omega)]

/-- With no RUNNABLE process below level `l`, the scan of level `l` ends after
`l * (NPROC + 1) + NPROC` steps. -/
theorem mlfq_level_scanned {s : Kernel 1} (hproc : (s.cpus cpu0).proc = none) {l : Nat}
    (hl : l ≤ 2) (hbelow : ∀ l' < l, ∀ q, ¬ MlfqCand s.procs l' q) :
    ∃ minP, schedRun .mlfq cpu0 (l * (NPROC + 1) + NPROC) (s.setPc cpu0 (.mlfq 0 0 none)) =
        some (s.setPc cpu0 (.mlfq l NPROC minP)) ∧ MlfqScan s.procs l NPROC minP := by
  obtain ⟨minP, hscan, hinv⟩ := mlfq_scan_run hproc l
  refine ⟨minP, ?_, hinv⟩
  rw [schedRun_add, mlfq_levels_run hproc l hl hbelow, Option.bind_some, hscan]

/-- On one CPU, for every process table whose RUNNABLE processes have levels `0 .. 2`, an iteration
of `schedule_mlfq` after `starvation_clean` returns when no process is RUNNABLE. Otherwise it
dispatches a RUNNABLE process `j` of the lowest level that has one, with no earlier `ltime` at its
level and an earlier `ltime` than every such process at a lower index. Each level scan below `j`'s
ends holding no process lock, and the scan of `j`'s level ends holding `j`'s lock alone (the lock
`Cpu.holds` reads off `min_p`). A run that reaches the dispatch never took the `break` after a
`min_p` that is not RUNNABLE: that `break` leaves the scheduler thread with no next step. -/
theorem mlfq_dispatches_first_least {s : Kernel 1} (hc : s.cpus cpu0 = ⟨none, .mlfq 0 0 none⟩)
    (hlev : ∀ q, (s.procs q).state = .runnable →
      0 ≤ (s.procs q).queueLevel ∧ (s.procs q).queueLevel ≤ 2) :
    ((∀ q, (s.procs q).state ≠ .runnable) ∧
      schedRun .mlfq cpu0 (3 * (NPROC + 1)) s = some (s.setPc cpu0 .top)) ∨
    ∃ j, (s.procs j).state = .runnable ∧
      (∀ q, (s.procs q).state = .runnable → (s.procs j).queueLevel ≤ (s.procs q).queueLevel) ∧
      (∀ q, (s.procs q).state = .runnable → (s.procs q).queueLevel = (s.procs j).queueLevel →
        ¬ (s.procs q).ltime < (s.procs j).ltime) ∧
      (∀ q, (s.procs q).state = .runnable → (s.procs q).queueLevel = (s.procs j).queueLevel →
        q.val < j.val → (s.procs j).ltime < (s.procs q).ltime) ∧
      (∀ l < (s.procs j).queueLevel.toNat,
        schedRun .mlfq cpu0 (l * (NPROC + 1) + NPROC) s = some (s.setPc cpu0 (.mlfq l NPROC none))) ∧
      schedRun .mlfq cpu0 ((s.procs j).queueLevel.toNat * (NPROC + 1) + NPROC) s =
        some (s.setPc cpu0 (.mlfq (s.procs j).queueLevel.toNat NPROC (some j))) ∧
      schedRun .mlfq cpu0 (((s.procs j).queueLevel.toNat + 1) * (NPROC + 1)) s =
        some (s.dispatch cpu0 j ((s.procs j).dispatchMlfq s.now) .mlfq) := by
  classical
  have hproc : (s.cpus cpu0).proc = none := by rw [hc]
  have hs : s.setPc cpu0 (.mlfq 0 0 none) = s := Kernel.setPc_eq_self (by rw [hc])
  -- a RUNNABLE process is a candidate of the scan of its own level
  have hcand : ∀ q, (s.procs q).state = .runnable →
      MlfqCand s.procs (s.procs q).queueLevel.toNat q := fun q hq =>
    ⟨by rw [Int.toNat_of_nonneg (hlev q hq).1], hq⟩
  by_cases hany : ∃ l q, MlfqCand s.procs l q
  · -- the lowest level with a RUNNABLE process
    let L := Nat.find hany
    have hbelow : ∀ l' < L, ∀ q, ¬ MlfqCand s.procs l' q := fun l' hl' q hq =>
      Nat.find_min hany hl' ⟨q, hq⟩
    obtain ⟨q₀, hq₀⟩ := Nat.find_spec hany
    have hL : L ≤ 2 := by
      have hle := Nat.find_min' hany ⟨q₀, hcand q₀ hq₀.2⟩
      have := (hlev q₀ hq₀.2).2
      omega
    obtain ⟨minP, hscan, hinv⟩ := mlfq_level_scanned hproc hL hbelow
    obtain ⟨j, hj⟩ : ∃ j, minP = some j := Option.ne_none_iff_exists'.mp
      fun hnone => hinv.none_iff.mp hnone q₀ hq₀
    subst hj
    obtain ⟨⟨hjL, hjrun⟩, -, hfirst⟩ := hinv.2 j rfl
    have hjlev : (s.procs j).queueLevel.toNat = L := by rw [hjL, Int.toNat_natCast]
    rw [hs] at hscan
    right
    refine ⟨j, hjrun, fun q hq => ?_, fun q hq hql hlt => ?_, fun q hq hql hlt => ?_,
      fun l hl => ?_, by rw [hjlev, hscan], ?_⟩
    · -- no RUNNABLE process is at a lower level
      have hle := Nat.find_min' hany ⟨q, hcand q hq⟩
      rw [hjL]
      have := (hlev q hq).1
      omega
    · obtain ⟨j', hj', hnot⟩ := hinv.1 q q.isLt ⟨by rw [hql, hjL], hq⟩
      obtain rfl := Option.some.inj hj'
      exact hnot hlt
    · exact hfirst q hlt ⟨by rw [hql, hjL], hq⟩
    · -- a lower level ends its scan without a candidate
      rw [hjlev] at hl
      obtain ⟨minP', hscan', hinv'⟩ := mlfq_level_scanned hproc (by omega : l ≤ 2)
        fun l' hl' => hbelow l' (by omega)
      obtain rfl : minP' = none := hinv'.none_iff.mpr (hbelow l hl)
      rw [hs] at hscan'
      exact hscan'
    · rw [hjlev, Nat.succ_mul, ← Nat.add_assoc, schedRun_add, hscan, Option.bind_some, schedRun_one,
        mlfq_scan_dispatch hproc hjrun]
  · -- no level has a RUNNABLE process: three empty scans, then back to `scheduler()`
    simp only [not_exists] at hany
    left
    refine ⟨fun q hq => hany _ q (hcand q hq), ?_⟩
    obtain ⟨minP, hscan, hinv⟩ := mlfq_level_scanned hproc (le_refl 2) fun l' _ => hany l'
    obtain rfl : minP = none := hinv.none_iff.mpr (hany 2)
    rw [hs] at hscan
    rw [show 3 * (NPROC + 1) = 2 * (NPROC + 1) + NPROC + 1 by omega, schedRun_add, hscan,
      Option.bind_some, schedRun_one, mlfq_scan_last hproc]

/-- On one CPU, in every reachable state whose scheduler thread has just finished
`starvation_clean` and starts the scans of `schedule_mlfq`: no process is RUNNABLE and the
iteration returns, or the iteration dispatches the RUNNABLE process `j` of the lowest level that
has one, with no earlier `ltime` at its level and an earlier `ltime` than every such process at a
lower index. The level scans below `j`'s end holding no process lock, the scan of `j`'s level
ends holding `j`'s lock alone, and the `break` after a `min_p` that is not RUNNABLE is never
taken. Every reachable table keeps its levels in `0 .. 2` (`levelsOk_of_reachable`), the levels
the scans read. -/
theorem mlfq_dispatches_least_reachable {s : Kernel 1} (h : Reachable .mlfq s)
    (hc : s.cpus cpu0 = ⟨none, .mlfq 0 0 none⟩) :
    ((∀ q, (s.procs q).state ≠ .runnable) ∧
      schedRun .mlfq cpu0 (3 * (NPROC + 1)) s = some (s.setPc cpu0 .top)) ∨
    ∃ j, (s.procs j).state = .runnable ∧
      (∀ q, (s.procs q).state = .runnable → (s.procs j).queueLevel ≤ (s.procs q).queueLevel) ∧
      (∀ q, (s.procs q).state = .runnable → (s.procs q).queueLevel = (s.procs j).queueLevel →
        ¬ (s.procs q).ltime < (s.procs j).ltime) ∧
      (∀ q, (s.procs q).state = .runnable → (s.procs q).queueLevel = (s.procs j).queueLevel →
        q.val < j.val → (s.procs j).ltime < (s.procs q).ltime) ∧
      (∀ l < (s.procs j).queueLevel.toNat,
        schedRun .mlfq cpu0 (l * (NPROC + 1) + NPROC) s = some (s.setPc cpu0 (.mlfq l NPROC none))) ∧
      schedRun .mlfq cpu0 ((s.procs j).queueLevel.toNat * (NPROC + 1) + NPROC) s =
        some (s.setPc cpu0 (.mlfq (s.procs j).queueLevel.toNat NPROC (some j))) ∧
      schedRun .mlfq cpu0 (((s.procs j).queueLevel.toNat + 1) * (NPROC + 1)) s =
        some (s.dispatch cpu0 j ((s.procs j).dispatchMlfq s.now) .mlfq) := by
  refine mlfq_dispatches_first_least hc fun q _ => ?_
  obtain ⟨h₀, h₁, h₂⟩ := levelsOk_of_reachable h q
  exact ⟨h₀, h₁.trans h₂⟩

/-- Under MLFQ, init forks a child, uses up its level-0 slice and is demoted to level 1; the
scheduler then finishes `starvation_clean`. Init in slot 0 is RUNNABLE at level 1, the child in
slot 1 at level 0. -/
def mlfqForked : Kernel 1 :=
  runTo .mlfq (Kernel.boot 0)
    (List.replicate 131 (cpu0, Act.sched) ++
      [(cpu0, Act.kfork .ok), (cpu0, Act.clock 5000), (cpu0, Act.yield)] ++
      List.replicate 66 (cpu0, Act.sched))

set_option maxRecDepth 20000 in
/-- The scans pass over init, at the lower index, and dispatch the child, at the lower level. -/
theorem mlfq_dispatches_least_forked :
    Reachable .mlfq mlfqForked ∧ mlfqForked.cpus cpu0 = ⟨none, .mlfq 0 0 none⟩ ∧
      (mlfqForked.procs 0).state = .runnable ∧ (mlfqForked.procs 0).queueLevel = 1 ∧
      (mlfqForked.procs 1).state = .runnable ∧ (mlfqForked.procs 1).queueLevel = 0 ∧
      schedRun .mlfq cpu0 (NPROC + 1) mlfqForked =
        some (mlfqForked.dispatch cpu0 1 ((mlfqForked.procs 1).dispatchMlfq mlfqForked.now) .mlfq) := by
  have hr : Reachable .mlfq mlfqForked := reachable_runTo (.boot 0) _
  have hc : mlfqForked.cpus cpu0 = ⟨none, .mlfq 0 0 none⟩ := by decide
  have h0 : (mlfqForked.procs 0).state = .runnable ∧ (mlfqForked.procs 0).queueLevel = 1 := by
    decide
  have h1 : (mlfqForked.procs 1).state = .runnable ∧ (mlfqForked.procs 1).queueLevel = 0 := by
    decide
  have honly : ∀ q, (mlfqForked.procs q).state = .runnable → q = 0 ∨ q = 1 := by decide
  refine ⟨hr, hc, h0.1, h0.2, h1.1, h1.2, ?_⟩
  rcases mlfq_dispatches_least_reachable hr hc with ⟨hall, -⟩ | ⟨j, hj, hlow, -, -, -, -, hrun⟩
  · exact absurd h0.1 (hall 0)
  · -- the lowest level is the child's: init's level 1 is above it
    rcases honly j hj with rfl | rfl
    · have := hlow 1 h1.1
      rw [h0.2, h1.2] at this
      exact absurd this (by decide)
    · rw [h1.2] at hrun
      rw [← hrun]
      rfl

end Xv6.Sched
