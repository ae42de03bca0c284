import Xv6.Sched.Shortest

/-!
# Xv6.Sched.ShortestOrder — hinted jobs under SJF and STCF

Under SJF a RUNNABLE process with a hint that ranks before another by `(expected_runtime, ctime,
pid)` keeps that one off the CPU; under STCF the same holds of `time_left`, which running only
decreases. Both need the CPU to be outside a `schedule_rr` fallback round at the start: such a
round was entered when no RUNNABLE process had a hint, and it runs every RUNNABLE slot in slot
order, hinted processes forked or woken during the round included. STCF needs also that `p` never
runs past its `time_left`, where the unsigned decrement would wrap around.
-/

namespace Xv6.Sched

open Xv6.Lib

variable {n : Nat} {s s' : Kernel n}

/-! ## `time_left` of a process that does not overrun -/

/-- The code after a `swtch` writes `time_left` only in `schedule_stcf`'s accounting. -/
theorem afterSwtch_timeLeft {k : Ret} {p p' : Proc} {now : UInt64} {pc : SchedPc}
    (h : afterSwtch k p now = some (p', pc)) :
    p'.timeLeft = p.timeLeft ∨ p'.timeLeft = (p.accountStcf now).timeLeft := by
  cases k with
  | stcf =>
    cases h
    exact .inr rfl
  | mlfq =>
    simp only [afterSwtch, Option.map_eq_some_iff, Prod.mk.injEq] at h
    obtain ⟨q, hq, rfl, -⟩ := h
    rw [Proc.demoteMlfq_frame hq]
    exact .inl rfl
  | rr i | fifo | sjf =>
    cases h
    exact .inl rfl

/-- An interval no longer than `time_left` leaves it no larger; the `time_left < 0` test of the
source never holds of a `uint64`. -/
theorem Proc.accountStcf_timeLeft_le {p : Proc} {now : UInt64} (h : now - p.ltime ≤ p.timeLeft) :
    (p.accountStcf now).timeLeft ≤ p.timeLeft := by
  have hneg : ∀ x : UInt64, ¬ x < 0 := fun x hx => by
    rw [UInt64.lt_iff_toNat_lt] at hx
    simp at hx
  simp only [Proc.accountStcf]
  rw [if_neg (hneg _)]
  split
  · rw [UInt64.le_iff_toNat_le, UInt64.toNat_sub_of_le _ _ h]
    omega
  · exact UInt64.le_refl _

/-- A ready process that neither sleeps nor exits, makes no hint call and does not run past its
`time_left` ends a step with no more `time_left` than it started with. -/
theorem SlotStep.timeLeft_le_of_ready {c : Fin n} {a : Act} {j : Fin NPROC}
    (hrun : ∀ c r, (s.cpus c).proc = some r → (s.procs r).state = .running)
    (h : SlotStep s s' c a j) (hj : Ready (s.procs j)) (hsl : (s'.procs j).state ≠ .sleeping)
    (hz : (s'.procs j).state ≠ .zombie) (hnh : (s.cpus c).proc = some j → a.isHint = false)
    (hover : (s.procs j).state = .running → s.now - (s.procs j).ltime ≤ (s.procs j).timeLeft) :
    (s'.procs j).timeLeft ≤ (s.procs j).timeLeft := by
  have hnot : (s.procs j).state ≠ .unused ∧ (s.procs j).state ≠ .zombie := by
    rcases hj with hj | hj <;> simp [hj]
  cases h with
  | same h | age q _ _ _ h | relink par st _ _ h | kill pid _ h | setexpected arg _ _ h =>
    rw [h]
    exact UInt64.le_refl _
  | dispatch _ h =>
    rw [h, Proc.dispatch_frame]
    exact UInt64.le_refl _
  | dispatchMlfq _ h =>
    rw [h, Proc.dispatchMlfq_frame]
    exact UInt64.le_refl _
  | yield k pc hc h =>
    -- the scheduler's accounting after `yield`, over an interval no longer than `time_left`
    rcases afterSwtch_timeLeft h with htl | htl <;> rw [htl]
    · exact UInt64.le_refl _
    · exact Proc.accountStcf_timeLeft_le (hover (hrun c j hc))
  | sleep k pc chan hc h => exact absurd (afterSwtch_state h) hsl
  | exit k pc par status hc h => exact absurd (afterSwtch_state h) hz
  | reap r _ _ hzombie _ => exact absurd hzombie hnot.2
  | fork r _ hunused _ _ | forkFail q hunused _ _ => exact absurd hunused hnot.1
  | setstcfvals arg ha hc _ =>
    have := hnh hc
    simp [ha, Act.isHint] at this
  | tick hc h =>
    rw [h]
    unfold Proc.tick
    split
    · exact UInt64.le_refl _
    · exact UInt64.le_refl _

/-- A hint fits in an `int`, so it is not `~0ULL`. -/
theorem ne_noHint_of_toNat_lt {k : UInt64} (h : k.toNat < 2 ^ 31) : k ≠ noHint := by
  intro hk
  rw [hk] at h
  exact absurd h (by decide)

/-! ## SJF -/

/-- Under SJF on one CPU, take a state outside a `schedule_rr` round at which `p` and `q` are
RUNNABLE with hints and `p` ranks before `q` by `(expected_runtime, ctime, pid)`. Along any run from
there in which `p` neither sleeps, exits nor sets its hint, the process `q` is never dispatched. -/
theorem sjf_hint_order (p q : Fin NPROC) {s₀ : Kernel 1} {l : List (Kernel 1)}
    (hs₀ : Reachable .sjf s₀) (hl : (s₀ :: l).IsChain (StepNoHint .sjf p))
    (hp : (s₀.procs p).state = .runnable) (hq : (s₀.procs q).state = .runnable)
    (hep : (s₀.procs p).expectedRuntime ≠ 0) (heq : (s₀.procs q).expectedRuntime ≠ 0)
    (hrank : Ranked (rankBy Proc.expectedRuntime (s₀.procs p))
      (rankBy Proc.expectedRuntime (s₀.procs q)))
    (hround : (s₀.cpus cpu0).pc.inRr = false)
    (hstay : ∀ s ∈ s₀ :: l, (s.procs p).state ≠ .sleeping ∧ (s.procs p).state ≠ .zombie) :
    ∀ st ∈ adj (s₀ :: l), (st.1.procs q).pid = (s₀.procs q).pid → ¬ Dispatches st.1 st.2 q := by
  have hl' : (s₀ :: l).IsChain (Step .sjf) := hl.imp fun _ _ h => h.step
  have hready := ready_of_run hl' (.inl hp) hstay
  -- with a hint the key of `schedule_sjf` is the hint
  have hsjf : ∀ x : Proc, x.expectedRuntime ≠ 0 → Shortest.sjf.key x = x.expectedRuntime :=
    fun _ hx => if_pos hx
  -- `p` keeps its hint, and so its key, all along the run
  have hkey : ∀ st ∈ adj (s₀ :: l),
      Shortest.sjf.key (st.2.procs p) ≤ Shortest.sjf.key (st.1.procs p) := by
    intro st hst
    obtain ⟨c, a, h, hnh⟩ := IsChain.rel_of_mem_adj hl hst
    have her := (step_slotStep h p).expectedRuntime_of_ready
      (hready st.1 (mem_of_mem_adj hst).1) hnh
    simp only [Shortest.key, sjfKey, her]
    exact UInt64.le_refl _
  have hkp : Shortest.sjf.key (s₀.procs p) ≠ noHint := by
    rw [hsjf _ hep]
    exact ne_noHint_of_toNat_lt ((wf_of_reachable hs₀).hint_lt p)
  have hrank' : Ranked (rankBy Shortest.sjf.key (s₀.procs p))
      (rankBy Shortest.sjf.key (s₀.procs q)) := by
    simpa only [rankBy, hsjf _ hep, hsjf _ heq] using hrank
  exact shortest_order .sjf hs₀ hl' p q hp hq hkp hrank' hround hstay hkey

/-- Under SJF, init, with no hint, is dispatched by a `schedule_rr` round; it sets its hint to 2
and forks a child, then to 1 and forks another. The round ends after each has run once. -/
def sjfForked : Kernel 1 :=
  runTo .sjf (Kernel.boot 0) (List.replicate 67 (cpu0, Act.sched) ++
    [(cpu0, Act.setexpected 2), (cpu0, Act.kfork .ok), (cpu0, Act.setexpected 1),
      (cpu0, Act.kfork .ok)])

/-- `sjfForked` once the round has run both children and returned to `scheduler()`. -/
def sjfSettled : Kernel 1 :=
  runTo .sjf sjfForked ([(cpu0, Act.yield), (cpu0, Act.sched), (cpu0, Act.yield),
    (cpu0, Act.sched), (cpu0, Act.yield)] ++ List.replicate 62 (cpu0, Act.sched))

theorem sjf_hint_order_settled :
    (sjfSettled.procs 2).state = .runnable ∧
    (sjfSettled.procs 1).state = .runnable ∧
    (sjfSettled.procs 2).expectedRuntime ≠ 0 ∧
    (sjfSettled.procs 1).expectedRuntime ≠ 0 ∧
    Ranked (rankBy Proc.expectedRuntime (sjfSettled.procs 2))
      (rankBy Proc.expectedRuntime (sjfSettled.procs 1)) ∧
    (sjfSettled.cpus cpu0).pc.inRr = false ∧
    (∀ s ∈ sjfSettled :: trace .sjf sjfSettled (List.replicate 66 (cpu0, .sched)),
      (s.procs 2).state ≠ .sleeping ∧ (s.procs 2).state ≠ .zombie) ∧
    ∀ st ∈ adj (sjfSettled :: trace .sjf sjfSettled (List.replicate 66 (cpu0, .sched))),
      (st.1.procs 1).pid = (sjfSettled.procs 1).pid →
        ¬ Dispatches st.1 st.2 1 :=
  ⟨by decide, by decide, by decide, by decide, by decide, by decide, by decide,
    sjf_hint_order 2 1 (reachable_runTo (reachable_runTo (.boot 0) _) _)
      (isChain_trace_noHint _ _ _ (by decide)) (by decide) (by decide) (by decide) (by decide)
      (by decide) (by decide) (by decide)⟩

/-- Inside the round, the child with hint 2 is dispatched before the RUNNABLE child with hint 1. -/
theorem sjf_hint_order_in_round :
    Reachable .sjf sjfForked ∧
    (sjfForked :: trace .sjf sjfForked [(cpu0, .yield), (cpu0, .sched)]).IsChain
      (StepNoHint .sjf 2) ∧
    (sjfForked :: trace .sjf sjfForked [(cpu0, .yield), (cpu0, .sched)]).IsChain
      (StepNoHint .sjf 1) ∧
    (sjfForked.procs 2).state = .runnable ∧
    (sjfForked.procs 1).state = .runnable ∧
    (sjfForked.procs 2).expectedRuntime ≠ 0 ∧
    (sjfForked.procs 1).expectedRuntime ≠ 0 ∧
    Ranked (rankBy Proc.expectedRuntime (sjfForked.procs 2))
      (rankBy Proc.expectedRuntime (sjfForked.procs 1)) ∧
    (∀ s ∈ sjfForked :: trace .sjf sjfForked [(cpu0, .yield), (cpu0, .sched)],
      (s.procs 2).state ≠ .sleeping ∧ (s.procs 1).state ≠ .sleeping ∧
        (s.procs 2).state ≠ .zombie) ∧
    ∃ st ∈ adj (sjfForked :: trace .sjf sjfForked [(cpu0, .yield), (cpu0, .sched)]),
      (st.1.procs 1).pid = (sjfForked.procs 1).pid ∧
        Dispatches st.1 st.2 1 :=
  ⟨reachable_runTo (.boot 0) _, isChain_trace_noHint _ _ _ (by decide),
    isChain_trace_noHint _ _ _ (by decide), by decide⟩

/-! ## STCF -/

theorem ne_noHint_of_lt {k k' : UInt64} (h : k < k') : k ≠ noHint := by
  have hmax : noHint.toNat = UInt64.size - 1 := rfl
  have hlt := k'.toNat_lt_size
  rw [UInt64.lt_iff_toNat_lt] at h
  intro hk
  rw [hk] at h
  omega

/-- Under STCF on one CPU, take a state outside a `schedule_rr` round at which `p` and `q` are
RUNNABLE with hints and `time_left(p) < time_left(q)`. Along any run from there in which `p`
neither sleeps, exits nor sets its hint, and never runs past its `time_left`, the process `q` is
never dispatched. -/
theorem stcf_time_left_order (p q : Fin NPROC) {s₀ : Kernel 1} {l : List (Kernel 1)}
    (hs₀ : Reachable .stcf s₀) (hl : (s₀ :: l).IsChain (StepNoHint .stcf p))
    (hp : (s₀.procs p).state = .runnable) (hq : (s₀.procs q).state = .runnable)
    (hep : (s₀.procs p).expectedRuntime ≠ 0) (heq : (s₀.procs q).expectedRuntime ≠ 0)
    (htl : (s₀.procs p).timeLeft < (s₀.procs q).timeLeft)
    (hround : (s₀.cpus cpu0).pc.inRr = false)
    (hstay : ∀ s ∈ s₀ :: l, (s.procs p).state ≠ .sleeping ∧ (s.procs p).state ≠ .zombie)
    (hover : ∀ s ∈ s₀ :: l, (s.procs p).state = .running →
      s.now - (s.procs p).ltime ≤ (s.procs p).timeLeft) :
    ∀ st ∈ adj (s₀ :: l), (st.1.procs q).pid = (s₀.procs q).pid → ¬ Dispatches st.1 st.2 q := by
  have hl' : (s₀ :: l).IsChain (Step .stcf) := hl.imp fun _ _ h => h.step
  have hreach := reachable_of_run (fun _ _ h => h) hs₀ hl'
  have hready := ready_of_run hl' (.inl hp) hstay
  -- with a hint the key of `schedule_stcf` is `time_left`
  have hstcf : ∀ x : Proc, x.expectedRuntime ≠ 0 → Shortest.stcf.key x = x.timeLeft :=
    fun _ hx => if_neg hx
  -- `p` keeps its hint, and its `time_left` does not grow
  have hkey : ∀ st ∈ adj (s₀ :: l),
      Shortest.stcf.key (st.2.procs p) ≤ Shortest.stcf.key (st.1.procs p) := by
    intro st hst
    obtain ⟨c, a, h, hnh⟩ := IsChain.rel_of_mem_adj hl hst
    obtain ⟨hx, hy⟩ := mem_of_mem_adj hst
    have hsp := step_slotStep h p
    have her := hsp.expectedRuntime_of_ready (hready st.1 hx) hnh
    have htl' := hsp.timeLeft_le_of_ready (wf_of_reachable (hreach st.1 hx)).excl.running_of_proc
      (hready st.1 hx) (hstay st.2 hy).1 (hstay st.2 hy).2 hnh (hover st.1 hx)
    simp only [Shortest.key, stcfKey, her]
    split
    · exact UInt64.le_refl _
    · exact htl'
  have hrank : Ranked (rankBy Shortest.stcf.key (s₀.procs p))
      (rankBy Shortest.stcf.key (s₀.procs q)) := by
    simp only [rankBy, hstcf _ hep, hstcf _ heq]
    exact .inl htl
  refine shortest_order .stcf hs₀ hl' p q hp hq ?_ hrank hround hstay hkey
  rw [hstcf _ hep]
  exact ne_noHint_of_lt htl

/-- Under STCF, init, with no hint, is dispatched by a `schedule_rr` round and forks a child,
which sets hint 5, so `time_left` 6, and sleeps. Dispatched by the next round, init sets hint 1,
forks a second child, which inherits the hint with `time_left` 0, and wakes the first. -/
def stcfForked : Kernel 1 :=
  runTo .stcf (Kernel.boot 0) (List.replicate 67 (cpu0, Act.sched) ++
    [(cpu0, Act.kfork .ok), (cpu0, Act.yield), (cpu0, Act.sched), (cpu0, Act.setstcfvals 5),
      (cpu0, Act.sleep (.obj 7))] ++ List.replicate 130 (cpu0, Act.sched) ++
    [(cpu0, Act.setexpected 1), (cpu0, Act.kfork .ok), (cpu0, Act.wakeup (.obj 7))])

/-- `stcfForked` once the round has run both children and returned to `scheduler()`. -/
def stcfSettled : Kernel 1 :=
  runTo .stcf stcfForked ([(cpu0, Act.yield), (cpu0, Act.sched), (cpu0, Act.yield),
    (cpu0, Act.sched), (cpu0, Act.yield)] ++ List.replicate 62 (cpu0, Act.sched))

set_option maxRecDepth 20000 in
theorem stcf_time_left_order_settled :
    (stcfSettled.procs 2).state = .runnable ∧ (stcfSettled.procs 1).state = .runnable ∧
    (stcfSettled.procs 2).expectedRuntime ≠ 0 ∧ (stcfSettled.procs 1).expectedRuntime ≠ 0 ∧
    (stcfSettled.procs 2).timeLeft < (stcfSettled.procs 1).timeLeft ∧
    (stcfSettled.cpus cpu0).pc.inRr = false ∧
    (∀ s ∈ stcfSettled :: trace .stcf stcfSettled (List.replicate 66 (cpu0, .sched)),
      (s.procs 2).state ≠ .sleeping ∧ (s.procs 2).state ≠ .zombie) ∧
    (∀ s ∈ stcfSettled :: trace .stcf stcfSettled (List.replicate 66 (cpu0, .sched)),
      (s.procs 2).state = .running → s.now - (s.procs 2).ltime ≤ (s.procs 2).timeLeft) ∧
    ∀ st ∈ adj (stcfSettled :: trace .stcf stcfSettled (List.replicate 66 (cpu0, .sched))),
      (st.1.procs 1).pid = (stcfSettled.procs 1).pid → ¬ Dispatches st.1 st.2 1 :=
  ⟨by decide, by decide, by decide, by decide,
    by decide, by decide, by decide, by decide,
    stcf_time_left_order 2 1 (reachable_runTo (reachable_runTo (.boot 0) _) _)
      (isChain_trace_noHint _ _ _ (by decide)) (by decide) (by decide)
      (by decide) (by decide) (by decide) (by decide)
      (by decide) (by decide)⟩

/-- Inside the round, the child with `time_left` 6 is dispatched before the RUNNABLE child with
`time_left` 0. -/
theorem stcf_time_left_order_in_round :
    Reachable .stcf stcfForked ∧
    (stcfForked :: trace .stcf stcfForked [(cpu0, .yield), (cpu0, .sched)]).IsChain
      (StepNoHint .stcf 2) ∧
    (stcfForked :: trace .stcf stcfForked [(cpu0, .yield), (cpu0, .sched)]).IsChain
      (StepNoHint .stcf 1) ∧
    (stcfForked.procs 2).state = .runnable ∧ (stcfForked.procs 1).state = .runnable ∧
    (stcfForked.procs 2).expectedRuntime ≠ 0 ∧ (stcfForked.procs 1).expectedRuntime ≠ 0 ∧
    (stcfForked.procs 2).timeLeft < (stcfForked.procs 1).timeLeft ∧
    (∀ s ∈ stcfForked :: trace .stcf stcfForked [(cpu0, .yield), (cpu0, .sched)],
      (s.procs 2).state ≠ .sleeping ∧ (s.procs 1).state ≠ .sleeping ∧
        (s.procs 2).state ≠ .zombie) ∧
    ∃ st ∈ adj (stcfForked :: trace .stcf stcfForked [(cpu0, .yield), (cpu0, .sched)]),
      (st.1.procs 1).pid = (stcfForked.procs 1).pid ∧ Dispatches st.1 st.2 1 :=
  ⟨reachable_runTo (.boot 0) _, isChain_trace_noHint _ _ _ (by decide),
    isChain_trace_noHint _ _ _ (by decide), by decide⟩

end Xv6.Sched
