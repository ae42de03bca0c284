import Xv6.Sched.Cases

/-!
# Xv6.Sched.Slot — what a step does to one slot of the process table

Every invariant about a single `struct proc` (its timestamps, its pid, its hint, its MLFQ level)
is proved from one classification: a step leaves slot `j` as it was, or applies to it exactly one
of the record operations of `proc.c` (`SlotStep`). Each constructor carries the guard under which
the code performs it (a dispatch only of a RUNNABLE slot, a reap only of a ZOMBIE one, the
operations of a running process only on a slot some CPU runs).
-/

namespace Xv6.Sched

variable {n : Nat} {pol : SchedPolicy} {s s' : Kernel n}

/-- The ways one step of CPU `c` doing `a` can change slot `j`. -/
inductive SlotStep (s s' : Kernel n) (c : Fin n) (a : Act) (j : Fin NPROC) : Prop where
  | same (h : s'.procs j = s.procs j)
  /-- A scheduler dispatches it. -/
  | dispatch (hrun : (s.procs j).state = .runnable) (h : s'.procs j = (s.procs j).dispatch s.now)
  | dispatchMlfq (hrun : (s.procs j).state = .runnable)
      (h : s'.procs j = (s.procs j).dispatchMlfq s.now)
  /-- `starvation_clean` moves it up a level. -/
  | age (q : UInt64) (hrun : (s.procs j).state = .runnable) (hql : 0 < (s.procs j).queueLevel)
      (hq : quantumAt ((s.procs j).queueLevel - 1) = some q)
      (h : s'.procs j = { (s.procs j) with queueLevel := (s.procs j).queueLevel - 1, timeSlice := q })
  /-- It gives its CPU back through `yield`, `sleep` or `kexit`, and the scheduler accounts for it. -/
  | yield (k : Ret) (pc : SchedPc) (hc : (s.cpus c).proc = some j)
      (h : afterSwtch k { (s.procs j) with state := .runnable, context := .yield } s.now =
        some (s'.procs j, pc))
  | sleep (k : Ret) (pc : SchedPc) (chan : Chan) (hc : (s.cpus c).proc = some j)
      (h : afterSwtch k { (s.procs j) with chan := chan, state := .sleeping, context := .sleep }
        s.now = some (s'.procs j, pc))
  | exit (k : Ret) (pc : SchedPc) (par : Option (Fin NPROC)) (status : Int)
      (hc : (s.cpus c).proc = some j)
      (h : afterSwtch k { ({ (s.procs j) with parent := par }.kexitAccount s.now status) with
        context := .kexit } s.now = some (s'.procs j, pc))
  /-- `reparent` hands it to `initproc` when its parent exits, and a `wakeup` may wake it. -/
  | relink (par : Option (Fin NPROC)) (st : Procstate)
      (hpar : par = (s.procs j).parent ∨
        ∃ r, (s.cpus c).proc = some r ∧ (s.procs j).parent = some r ∧ par = some initproc)
      (hst : st = (s.procs j).state ∨ ((s.procs j).state = .sleeping ∧ st = .runnable))
      (h : s'.procs j = { (s.procs j) with parent := par, state := st })
  /-- `kwait` of its parent frees it. -/
  | reap (r : Fin NPROC) (hc : (s.cpus c).proc = some r)
      (hpar : (s.procs j).parent = some r) (hzombie : (s.procs j).state = .zombie)
      (h : s'.procs j = (s.procs j).freeproc) (ha : a = .kwait)
      (hfirst : firstZombieChild s.procs r = some j)
  /-- `kfork` takes it for a child of the process `r` a CPU runs, or returns it on a failure. -/
  | fork (r : Fin NPROC) (hc : (s.cpus c).proc = some r)
      (hunused : (s.procs j).state = .unused) (hpid : s'.nextpid = s.nextpid + 1)
      (h : s'.procs j = { ((s.procs j).allocStart s.nextpid).allocInit s.now with
        expectedRuntime := (s.procs r).expectedRuntime, parent := some r, state := .runnable })
      (hfirst : firstUnused s.procs = some j)
  | forkFail (q : Proc) (hunused : (s.procs j).state = .unused)
      (hpid : s'.nextpid = s.nextpid + 1) (h : s'.procs j = q.freeproc)
  /-- `kkill` with its pid. -/
  | kill (pid : Int32) (hpid : (s.procs j).pid = pid.toInt)
      (h : s'.procs j =
        { (s.procs j) with
          killed := 1, state := if (s.procs j).state = .sleeping then .runnable else (s.procs j).state })
  /-- A system call or the timer interrupt of the process itself. -/
  | setexpected (arg : Int32) (ha : a = .setexpected arg) (hc : (s.cpus c).proc = some j)
      (h : s'.procs j = (s.procs j).setexpected arg)
  | setstcfvals (arg : Int32) (ha : a = .setstcfvals arg) (hc : (s.cpus c).proc = some j)
      (h : s'.procs j = (s.procs j).setstcfvals arg)
  | tick (hc : (s.cpus c).proc = some j) (h : s'.procs j = (s.procs j).tick)

/-! ## Every step is one of them, on every slot -/

/-- A step that writes one slot leaves every other slot as it was. -/
theorem slotStep_update {c : Fin n} {a : Act} {r : Fin NPROC} {p : Proc}
    (hprocs : s'.procs = Function.update s.procs r p) (hr : SlotStep s s' c a r) (j : Fin NPROC) :
    SlotStep s s' c a j := by
  by_cases hj : j = r
  · subst hj
    exact hr
  · exact .same (by rw [hprocs, Function.update_of_ne hj])

theorem slotStep_kfork {c : Fin n} {a : Act} {r : Fin NPROC} (hc : (s.cpus c).proc = some r)
    (out : ForkOut) (j : Fin NPROC) : SlotStep s (s.kfork r out) c a j := by
  rcases kfork_cases s r out with h | ⟨j', hfirst, hunused, ⟨q, h⟩ | ⟨-, h⟩⟩ <;> rw [h]
  · exact .same rfl
  · exact slotStep_update rfl (.forkFail q hunused rfl (by simp)) j
  · exact slotStep_update rfl (.fork r hc hunused rfl (by simp) hfirst) j

theorem slotStep_kkill {c : Fin n} {a : Act} (pid : Int32) (j : Fin NPROC) :
    SlotStep s (s.kkill pid) c a j := by
  rcases kkill_cases s pid with h | ⟨j', hpid, h⟩ <;> rw [h]
  · exact .same rfl
  · exact slotStep_update rfl (.kill pid hpid (by rw [Kernel.setProc_procs, Function.update_self])) j

/-- The scheduler thread's steps: a dispatch, an aging, or nothing to the table. -/
theorem slotStep_schedStep {c : Fin n} {pc : SchedPc} (h : schedStep pol s c pc = some s')
    {a : Act} (j : Fin NPROC) : SlotStep s s' c a j := by
  rcases schedStep_cases h with ⟨pc', rfl⟩ | ⟨j', q, pc', hrun, hql, hq, rfl⟩ |
    ⟨j', k, hrun, rfl | rfl⟩
  · exact .same rfl
  · exact slotStep_update rfl (.age q hrun hql hq (by simp)) j
  · exact slotStep_update rfl (.dispatch hrun (by simp)) j
  · exact slotStep_update rfl (.dispatchMlfq hrun (by simp)) j

/-- The exiting slot after `kexit`: its record with the parent `reparent` leaves it, accounted by
`kexit` and then by the code after the scheduler's `swtch`. -/
theorem kexit_self {c : Fin n} {r : Fin NPROC} {k : Ret} {status : Int32}
    (h : s.kexit c r k status = some s') :
    ∃ pc, afterSwtch k { ({ (s.procs r) with
        parent := if (s.procs r).parent = some r then some initproc else (s.procs r).parent }.kexitAccount
          s.now status.toInt) with context := .kexit } s.now = some (s'.procs r, pc) := by
  obtain ⟨-, h⟩ := kexit_eq h
  obtain ⟨p', pc, hx, hs'⟩ := giveUp_eq h
  obtain ⟨st, hre, -⟩ := reparent_cases r s.procs r
  -- `wakeup` skips the exiting process itself
  have hw : wakeupProcs (some r) (parentChan (reparent r s.procs r)) (reparent r s.procs) r =
      reparent r s.procs r := by
    rcases wakeupProcs_cases (some r) (parentChan (reparent r s.procs r)) (reparent r s.procs) r
      with hw | ⟨-, -, hme, -⟩
    · exact hw
    · exact absurd rfl hme
  refine ⟨pc, ?_⟩
  rw [hs', Kernel.setCpu_procs, Kernel.setProc_procs, Function.update_self]
  rw [hw, hre] at hx
  exact hx

/-- `kexit`: the exiting slot is accounted and becomes a ZOMBIE; every other slot goes through
`reparent` and `wakeup(p->parent)`. -/
theorem slotStep_kexit {c : Fin n} {a : Act} {r : Fin NPROC} {k : Ret} {status : Int32}
    (hc : (s.cpus c).proc = some r) (h : s.kexit c r k status = some s') (j : Fin NPROC) :
    SlotStep s s' c a j := by
  by_cases hj : j = r
  · subst hj
    obtain ⟨pc, hx⟩ := kexit_self h
    exact .exit k pc _ status.toInt hc hx
  obtain ⟨-, h⟩ := kexit_eq h
  obtain ⟨p', pc, hx, hs'⟩ := giveUp_eq h
  obtain ⟨st, hre, hst⟩ := reparent_cases r s.procs j
  -- the parent `reparent` leaves: unchanged, or `initproc` in place of the exiting process
  have hpar : (if (s.procs j).parent = some r then some initproc else (s.procs j).parent) =
        (s.procs j).parent ∨
      ∃ r', (s.cpus c).proc = some r' ∧ (s.procs j).parent = some r' ∧
        (if (s.procs j).parent = some r then some initproc else (s.procs j).parent) =
          some initproc := by
    split
    · exact .inr ⟨r, hc, ‹_›, rfl⟩
    · exact .inl rfl
  have hs'j : s'.procs j =
      wakeupProcs (some r) (parentChan (reparent r s.procs r)) (reparent r s.procs) j := by
    rw [hs']
    simp [Function.update_of_ne hj]
  rcases wakeupProcs_cases (some r) (parentChan (reparent r s.procs r)) (reparent r s.procs) j
    with hw | ⟨hsl, -, -, hw⟩
  · exact .relink _ st hpar hst (by rw [hs'j, hw, hre])
  · -- `reparent` left it SLEEPING, so it did not touch its state
    have hsl' : st = .sleeping := by rwa [hre] at hsl
    have hold : (s.procs j).state = .sleeping := by
      rcases hst with hst | ⟨-, hst⟩
      · rw [← hst, hsl']
      · rw [hsl'] at hst
        cases hst
    exact .relink _ .runnable hpar (.inr ⟨hold, rfl⟩) (by rw [hs'j, hw, hre])

/-- The operations of the process `r` that CPU `c` runs. -/
theorem slotStep_procStep {c : Fin n} {r : Fin NPROC} {k : Ret} {a : Act}
    (hr : (s.cpus c).proc = some r) (h : procStep s c r k a = some s') (j : Fin NPROC) :
    SlotStep s s' c a j := by
  -- after `sched()` slot `r` holds what the code after the scheduler's `swtch` made of it
  have hgive : ∀ {p p' : Proc} {pc : SchedPc}, afterSwtch k p s.now = some (p', pc) →
      afterSwtch k p s.now = some (((s.setProc r p').setCpu c ⟨none, pc⟩).procs r, pc) := by
    intro p p' pc hx
    rw [Kernel.setCpu_procs, Kernel.setProc_procs, Function.update_self]
    exact hx
  cases a with
  | yield =>
    obtain ⟨p', pc, hx, rfl⟩ := giveUp_eq h
    exact slotStep_update rfl (.yield k pc hr (hgive hx)) j
  | sleep chan =>
    obtain ⟨p', pc, hx, rfl⟩ := giveUp_eq h
    exact slotStep_update rfl (.sleep k pc chan hr (hgive hx)) j
  | kexit status => exact slotStep_kexit hr h j
  | kwait =>
    rcases kwait_cases h with ⟨z, hfirst, hpar, hzombie, rfl⟩ | ⟨-, -, h⟩ | rfl
    · exact slotStep_update rfl (.reap r hr hpar hzombie (by simp) rfl hfirst) j
    · obtain ⟨p', pc, hx, rfl⟩ := giveUp_eq h
      exact slotStep_update rfl (.sleep k pc (.proc r) hr (hgive hx)) j
    · exact .same rfl
  | kfork out =>
    cases h
    exact slotStep_kfork hr out j
  | kkill pid =>
    cases h
    exact slotStep_kkill pid j
  | setexpected arg =>
    cases h
    exact slotStep_update rfl (.setexpected arg rfl hr (by simp)) j
  | setstcfvals arg =>
    cases h
    exact slotStep_update rfl (.setstcfvals arg rfl hr (by simp)) j
  | tick =>
    cases h
    exact slotStep_update rfl (.tick hr (by simp)) j
  | sched => cases h
  | wakeup _ => cases h
  | clock _ => cases h

/-- Every step changes every slot in one of the ways of `SlotStep`. -/
theorem step_slotStep {c : Fin n} {a : Act} (h : step pol s c a = some s') (j : Fin NPROC) :
    SlotStep s s' c a j := by
  rcases step_cases h with ⟨-, hs⟩ | ⟨chan, -, rfl⟩ | ⟨t, -, rfl⟩ | ⟨r, k, hr, -, hs⟩
  · exact slotStep_schedStep hs j
  · rcases wakeupProcs_cases (s.cpus c).proc chan s.procs j with hw | ⟨hsl, -, -, hw⟩
    · exact .same hw
    · exact .relink _ .runnable (.inl rfl) (.inr ⟨hsl, rfl⟩) hw
  · exact .same rfl
  · exact slotStep_procStep hr hs j

/-- `nextpid` moves only when `kfork` takes a slot. -/
theorem step_nextpid {c : Fin n} {a : Act} (h : step pol s c a = some s') :
    s'.nextpid = s.nextpid ∨ s'.nextpid = s.nextpid + 1 := by
  rcases step_cases h with ⟨-, hs⟩ | ⟨chan, -, rfl⟩ | ⟨t, -, rfl⟩ | ⟨r, k, hr, -, hs⟩
  · rcases schedStep_cases hs with ⟨pc', rfl⟩ | ⟨j', q, pc', -, -, -, rfl⟩ | ⟨j', k, -, rfl | rfl⟩ <;>
      simp
  · exact .inl rfl
  · exact .inl rfl
  · cases a with
    | yield | sleep _ =>
      obtain ⟨p', pc, -, rfl⟩ := giveUp_eq hs
      exact .inl rfl
    | kexit status =>
      obtain ⟨p', pc, -, rfl⟩ := giveUp_eq (kexit_eq hs).2
      exact .inl rfl
    | kwait =>
      rcases kwait_cases hs with ⟨z, -, -, -, rfl⟩ | ⟨-, -, h⟩ | rfl
      · exact .inl rfl
      · obtain ⟨p', pc, -, rfl⟩ := giveUp_eq h
        exact .inl rfl
      · exact .inl rfl
    | kfork out =>
      cases hs
      rcases kfork_cases s r out with h | ⟨j', -, -, ⟨q, h⟩ | ⟨-, h⟩⟩ <;> rw [h]
      · exact .inl rfl
      · exact .inr rfl
      · exact .inr rfl
    | kkill pid =>
      cases hs
      exact .inl (by simp)
    | setexpected _ | setstcfvals _ | tick =>
      cases hs
      exact .inl rfl
    | sched | wakeup _ | clock _ => cases hs

/-! ## The identity of a slot -/

/-- A slot's pid and creation time change only when `kfork` takes an UNUSED slot or `freeproc`
clears one, and an UNUSED slot stays UNUSED until `kfork` takes it. The operations of a running
process only reach a slot that is RUNNING, which `hrun` says of every slot a CPU runs. -/
theorem SlotStep.ident {c : Fin n} {a : Act} {j : Fin NPROC}
    (hrun : ∀ c r, (s.cpus c).proc = some r → (s.procs r).state = .running)
    (h : SlotStep s s' c a j) :
    ((s'.procs j).ctime = (s.procs j).ctime ∧ (s'.procs j).pid = (s.procs j).pid ∧
      ((s.procs j).state = .unused → (s'.procs j).state = .unused)) ∨
    ((s'.procs j).state = .unused ∧ (s'.procs j).ctime = 0 ∧ (s'.procs j).pid = 0) ∨
    ((s.procs j).state = .unused ∧ s'.nextpid = s.nextpid + 1 ∧ (s'.procs j).ctime = s.now ∧
      (s'.procs j).pid = s.nextpid ∧ firstUnused s.procs = some j) := by
  have hne : (s.cpus c).proc = some j → (s.procs j).state ≠ .unused := by
    intro hc hu
    have hr := hrun c j hc
    rw [hu] at hr
    cases hr
  cases h with
  | same h => exact .inl ⟨by rw [h], by rw [h], fun hu => by rw [h, hu]⟩
  | dispatch hr h =>
    rw [h, Proc.dispatch_frame]
    exact .inl ⟨rfl, rfl, fun hu => by simp [hu] at hr⟩
  | dispatchMlfq hr h =>
    rw [h, Proc.dispatchMlfq_frame]
    exact .inl ⟨rfl, rfl, fun hu => by simp [hu] at hr⟩
  | age q hr _ _ h =>
    rw [h]
    exact .inl ⟨rfl, rfl, fun hu => by simp [hu] at hr⟩
  | yield k pc hc h =>
    rw [afterSwtch_frame h]
    exact .inl ⟨rfl, rfl, fun hu => absurd hu (hne hc)⟩
  | sleep k pc chan hc h =>
    rw [afterSwtch_frame h]
    exact .inl ⟨rfl, rfl, fun hu => absurd hu (hne hc)⟩
  | exit k pc par status hc h =>
    rw [afterSwtch_frame h]
    exact .inl ⟨rfl, rfl, fun hu => absurd hu (hne hc)⟩
  | relink par st hpar hst h =>
    rw [h]
    refine .inl ⟨rfl, rfl, fun hu => ?_⟩
    rcases hst with rfl | ⟨hs, -⟩
    · exact hu
    · rw [hu] at hs
      cases hs
  | reap r hc hpar hzombie h => exact .inr (.inl (by simp [h, Proc.freeproc]))
  | fork r hc hunused hpid h hfirst =>
    rw [h]
    exact .inr (.inr ⟨hunused, hpid, rfl, rfl, hfirst⟩)
  | forkFail q hunused hpid h => exact .inr (.inl (by simp [h, Proc.freeproc]))
  | kill pid hpid h =>
    rw [h]
    exact .inl ⟨rfl, rfl, fun hu => by simp [hu]⟩
  | setexpected arg ha hc h =>
    rw [h]
    exact .inl ⟨rfl, rfl, fun hu => hu⟩
  | setstcfvals arg ha hc h =>
    rw [h]
    exact .inl ⟨rfl, rfl, fun hu => hu⟩
  | tick hc h =>
    rw [h]
    unfold Proc.tick
    split
    · exact .inl ⟨rfl, rfl, fun hu => hu⟩
    · exact .inl ⟨rfl, rfl, fun hu => hu⟩

/-- A slot's hint changes only by the process's own `setexpected` or `setstcfvals`, by `freeproc`,
or when `kfork` copies the parent's into a new child. -/
theorem SlotStep.expectedRuntime {c : Fin n} {a : Act} {j : Fin NPROC} (h : SlotStep s s' c a j) :
    (s'.procs j).expectedRuntime = (s.procs j).expectedRuntime ∨
    (∃ arg, (a = .setexpected arg ∨ a = .setstcfvals arg) ∧ (s.cpus c).proc = some j ∧
      (s'.procs j).expectedRuntime = hintOf arg) ∨
    (s'.procs j).expectedRuntime = 0 ∨
    (∃ r, (s.cpus c).proc = some r ∧ (s'.procs j).expectedRuntime = (s.procs r).expectedRuntime) := by
  cases h with
  | same h => exact .inl (by rw [h])
  | dispatch _ h =>
    rw [h, Proc.dispatch_frame]
    exact .inl rfl
  | dispatchMlfq _ h =>
    rw [h, Proc.dispatchMlfq_frame]
    exact .inl rfl
  | age q _ _ _ h => exact .inl (by rw [h])
  | yield k pc hc h => exact .inl (by rw [afterSwtch_frame h])
  | sleep k pc chan hc h => exact .inl (by rw [afterSwtch_frame h])
  | exit k pc par status hc h => exact .inl (by rw [afterSwtch_frame h]; rfl)
  | relink par st hpar hst h => exact .inl (by rw [h])
  | reap r hc hpar hzombie h => exact .inr (.inr (.inl (by rw [h]; rfl)))
  | fork r hc hunused hpid h => exact .inr (.inr (.inr ⟨r, hc, by rw [h]⟩))
  | forkFail q hunused hpid h => exact .inr (.inr (.inl (by rw [h]; rfl)))
  | kill pid hpid h => exact .inl (by rw [h])
  | setexpected arg ha hc h => exact .inr (.inl ⟨arg, .inl ha, hc, by rw [h]; rfl⟩)
  | setstcfvals arg ha hc h => exact .inr (.inl ⟨arg, .inr ha, hc, by rw [h]; rfl⟩)
  | tick hc h =>
    refine .inl ?_
    rw [h]
    unfold Proc.tick
    split <;> rfl

end Xv6.Sched
