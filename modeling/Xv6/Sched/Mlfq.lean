import Xv6.Sched.Uni

/-!
# Xv6.Sched.Mlfq — the levels of `schedule_mlfq`

`allocproc` and `freeproc` put a process at level 0 with priority 0; demotion raises the level by
one below level 2 and the priority by one below 2; `starvation_clean` lowers the level by one above
level 0. So `0 ≤ queue_level ≤ priority ≤ 2` holds of every slot in every reachable state, under
every policy (`levelsOk_of_reachable`): the `quantum[]` reads of demotion and aging stay in the
array, and the three level scans see every RUNNABLE process.

The refill of `time_slice` is not tied to the level the same way: aging refills it from
`quantum[queue_level]`, demotion from `quantum[priority]`, and aging lowers the level without the
priority.
-/

namespace Xv6.Sched

variable {n : Nat} {pol : SchedPolicy} {s s' : Kernel n}

/-! ## The level invariant -/

/-- `0 ≤ queue_level ≤ priority ≤ 2`. -/
def Proc.LevelsOk (p : Proc) : Prop :=
  0 ≤ p.queueLevel ∧ p.queueLevel ≤ p.priority ∧ p.priority ≤ 2

/-- An index in `0 … 2` reads `quantum[]` inside the array. -/
theorem quantumAt_isSome {i : Int} (h₀ : 0 ≤ i) (h₂ : i ≤ 2) : (quantumAt i).isSome := by
  unfold quantumAt
  rw [dif_pos ⟨h₀, by omega⟩]
  rfl

/-- Demotion keeps the invariant: the level rises below 2, the priority with it below 2. -/
theorem Proc.demoteMlfq_levelsOk {p p' : Proc} (h : p.demoteMlfq = some p') (hp : p.LevelsOk) :
    p'.LevelsOk := by
  obtain ⟨h₀, h₁, h₂⟩ := hp
  unfold Proc.demoteMlfq at h
  split at h
  · rename_i hc
    simp only [Option.map_eq_some_iff] at h
    obtain ⟨q, -, rfl⟩ := h
    simp only [Proc.LevelsOk]
    split <;> omega
  · cases h
    exact ⟨h₀, h₁, h₂⟩

/-- Under the invariant demotion always finds its quantum. -/
theorem Proc.demoteMlfq_isSome {p : Proc} (hp : p.LevelsOk) : p.demoteMlfq.isSome := by
  obtain ⟨h₀, h₁, h₂⟩ := hp
  unfold Proc.demoteMlfq
  split
  · rw [Option.isSome_map]
    split <;> exact quantumAt_isSome (by omega) (by omega)
  · rfl

theorem afterSwtch_levelsOk {k : Ret} {p p' : Proc} {now : UInt64} {pc : SchedPc}
    (h : afterSwtch k p now = some (p', pc)) (hp : p.LevelsOk) : p'.LevelsOk := by
  cases k with
  | mlfq =>
    simp only [afterSwtch, Option.map_eq_some_iff, Prod.mk.injEq] at h
    obtain ⟨q, hq, rfl, -⟩ := h
    exact Proc.demoteMlfq_levelsOk hq hp
  | rr i | fifo | sjf | stcf =>
    cases h
    exact hp

/-- Every step keeps the invariant on every slot. -/
theorem SlotStep.levelsOk {c : Fin n} {a : Act} {j : Fin NPROC} (h : SlotStep s s' c a j)
    (hj : (s.procs j).LevelsOk) : (s'.procs j).LevelsOk := by
  cases h with
  | same h | relink par st _ _ h | kill pid _ h | setexpected arg _ _ h
  | setstcfvals arg _ _ h =>
    rw [h]
    exact hj
  | dispatch _ h =>
    rw [h, Proc.dispatch_frame]
    exact hj
  | dispatchMlfq _ h =>
    rw [h, Proc.dispatchMlfq_frame]
    exact hj
  | age q _ hql _ h =>
    -- aging lowers a positive level by one
    rw [h]
    obtain ⟨h₀, h₁, h₂⟩ := hj
    simp only [Proc.LevelsOk]
    omega
  | yield k pc _ h | sleep k pc chan _ h | exit k pc par status _ h =>
    exact afterSwtch_levelsOk h hj
  | reap r _ _ _ h | forkFail q _ _ h =>
    rw [h]
    simp [Proc.LevelsOk, Proc.freeproc]
  | fork r _ _ _ h =>
    rw [h]
    simp [Proc.LevelsOk, Proc.allocInit]
  | tick _ h =>
    rw [h]
    unfold Proc.tick
    split
    · exact hj
    · exact hj

theorem levelsOk_boot (t : UInt64) (j : Fin NPROC) :
    ((Kernel.boot t : Kernel n).procs j).LevelsOk := by
  simp only [Kernel.boot]
  split
  · simp [Proc.LevelsOk, initProc, Proc.allocInit]
  · simp [Proc.LevelsOk, Proc.unused]

/-- `0 ≤ queue_level ≤ priority ≤ 2` in every reachable state, under every policy. -/
theorem levelsOk_of_reachable (h : Reachable pol s) (j : Fin NPROC) : (s.procs j).LevelsOk := by
  induction h with
  | boot t => exact levelsOk_boot t j
  | step _ hs ih =>
    obtain ⟨c, a, hs⟩ := hs
    exact (step_slotStep hs j).levelsOk ih

/-- In every reachable state every process satisfies `0 ≤ queue_level ≤ priority ≤ 2`; so the
`quantum[]` read of `starvation_clean` (at the lowered level) and the one of demotion (at the raised
priority) are in bounds, and every RUNNABLE process has the level of one of the three scans. -/
theorem mlfq_levels_in_bounds {s : Kernel n} (h : Reachable pol s) (j : Fin NPROC) :
    (0 ≤ (s.procs j).queueLevel ∧ (s.procs j).queueLevel ≤ (s.procs j).priority ∧
      (s.procs j).priority ≤ 2) ∧
    (0 < (s.procs j).queueLevel → (quantumAt ((s.procs j).queueLevel - 1)).isSome) ∧
    (∀ t, ((s.procs j).accountMlfq t).isSome) ∧
    ((s.procs j).state = .runnable → ∃ prty : Nat, prty ≤ 2 ∧ (s.procs j).queueLevel = prty) := by
  have hj := levelsOk_of_reachable h j
  obtain ⟨h₀, h₁, h₂⟩ := hj
  refine ⟨⟨h₀, h₁, h₂⟩, fun hpos => quantumAt_isSome (by omega) (by omega),
    fun _ => Proc.demoteMlfq_isSome ⟨h₀, h₁, h₂⟩, fun _ => ?_⟩
  exact ⟨(s.procs j).queueLevel.toNat, by omega, by omega⟩

/-! ## A slice longer than its level's quantum -/

/-- Under MLFQ, init uses up its level-0 slice and then its level-1 slice (two demotions, to level
2 with priority 2), waits past `starv_cut` twice (two agings, back to level 0), and uses up its
level-0 slice again: the third demotion refills the slice from `quantum[priority]`. -/
def mlfqRedemoted : Kernel 1 :=
  runTo .mlfq (Kernel.boot 0)
    (List.replicate 131 (cpu0, Act.sched) ++ [(cpu0, Act.clock 5000), (cpu0, Act.yield)] ++
      List.replicate 196 (cpu0, Act.sched) ++
      [(cpu0, Act.clock 15000), (cpu0, Act.yield), (cpu0, Act.clock 10015001)] ++
      List.replicate 196 (cpu0, Act.sched) ++ [(cpu0, Act.yield), (cpu0, Act.clock 20015002)] ++
      List.replicate 131 (cpu0, Act.sched) ++ [(cpu0, Act.clock 20020002), (cpu0, Act.yield)])

theorem mlfq_levels_in_bounds_redemoted :
    (0 ≤ (mlfqRedemoted.procs 0).queueLevel ∧
      (mlfqRedemoted.procs 0).queueLevel ≤ (mlfqRedemoted.procs 0).priority ∧
      (mlfqRedemoted.procs 0).priority ≤ 2) ∧
    (0 < (mlfqRedemoted.procs 0).queueLevel →
      (quantumAt ((mlfqRedemoted.procs 0).queueLevel - 1)).isSome) ∧
    (∀ t, ((mlfqRedemoted.procs 0).accountMlfq t).isSome) ∧
    ((mlfqRedemoted.procs 0).state = .runnable →
      ∃ prty : Nat, prty ≤ 2 ∧ (mlfqRedemoted.procs 0).queueLevel = prty) :=
  have hr : Reachable .mlfq mlfqRedemoted := reachable_runTo (.boot 0) _
  mlfq_levels_in_bounds hr 0

set_option maxRecDepth 20000 in
/-- At level 1 the process holds the slice of level 2. -/
theorem mlfq_slice_exceeds_quantum :
    Reachable .mlfq mlfqRedemoted ∧ (mlfqRedemoted.procs 0).queueLevel = 1 ∧
      quantumAt (mlfqRedemoted.procs 0).queueLevel = some 10000 ∧
      (mlfqRedemoted.procs 0).timeSlice = 20000 :=
  ⟨reachable_runTo (.boot 0) _, by decide⟩

end Xv6.Sched
