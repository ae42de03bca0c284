import Xv6.Sched.Uni

/-!
# Xv6.Sched.Table — free slots and parent links

`kfork` gives the child the forking process as parent; `kexit` hands every child of the exiting
process to `initproc` before the process becomes a ZOMBIE; `kwait` frees only ZOMBIE children of
the caller, and `initproc` never exits. So every process that is alive or a ZOMBIE, `initproc`
aside, has a parent that is alive (`parentOk_of_reachable`): no ZOMBIE is left without a parent
to reap it.

Strategy. Most steps keep, slot by slot, whether a process is alive or a ZOMBIE and the parent of
those that are (`SlotShape`); the invariant passes through them unchanged (`ParentOk.of_shape`).
The three that do not are a fork into an UNUSED slot, the reaping of a ZOMBIE
(`ParentOk.update_dead`) and `kexit` (`ParentOk.kexit`).
-/

namespace Xv6.Sched

open Xv6.Lib

variable {n : Nat} {pol : SchedPolicy} {s s' : Kernel n}

/-! ## The invariant -/

/-- SLEEPING, RUNNABLE or RUNNING: a process that has not exited. -/
def Procstate.Alive (st : Procstate) : Prop :=
  st = .sleeping ∨ st = .runnable ∨ st = .running

instance (st : Procstate) : Decidable st.Alive :=
  inferInstanceAs (Decidable (_ ∨ _))

/-- `initproc` is alive, and every other process that is alive or a ZOMBIE has a parent that is
alive. -/
structure ParentOk (s : Kernel n) : Prop where
  init_alive : (s.procs initproc).state.Alive
  parent_alive : ∀ j, j ≠ initproc → (s.procs j).state.Alive ∨ (s.procs j).state = .zombie →
    ∃ r, (s.procs j).parent = some r ∧ (s.procs r).state.Alive

theorem parentOk_boot (t : UInt64) : ParentOk (Kernel.boot t : Kernel n) := by
  refine ⟨by simp [Kernel.boot, initProc, Procstate.Alive], fun j hj hc => ?_⟩
  simp [Kernel.boot, hj, Proc.unused, Procstate.Alive] at hc

/-! ## Steps that keep the shape of every slot -/

/-- One slot's step keeps whether its process is alive, whether it is a ZOMBIE, and the parent
of a process that is either. -/
def SlotShape (p p' : Proc) : Prop :=
  (p'.state.Alive ↔ p.state.Alive) ∧ (p'.state = .zombie ↔ p.state = .zombie) ∧
    (p.state.Alive ∨ p.state = .zombie → p'.parent = p.parent)

theorem slotShape_of_eq {p p' : Proc} (hst : p'.state = p.state) (hpar : p'.parent = p.parent) :
    SlotShape p p' :=
  ⟨by rw [hst], by rw [hst], fun _ => hpar⟩

theorem slotShape_of_alive {p p' : Proc} (h : p.state.Alive) (h' : p'.state.Alive)
    (hpar : p'.parent = p.parent) : SlotShape p p' := by
  have hz : p.state ≠ .zombie := by rcases h with h | h | h <;> simp [h]
  have hz' : p'.state ≠ .zombie := by rcases h' with h | h | h <;> simp [h]
  exact ⟨iff_of_true h' h, iff_of_false hz' hz, fun _ => hpar⟩

theorem slotShape_of_unused {p p' : Proc} (h : p.state = .unused) (h' : p'.state = .unused) :
    SlotShape p p' := by
  refine ⟨by simp [Procstate.Alive, h, h'], by simp [h, h'], fun hc => ?_⟩
  simp [Procstate.Alive, h] at hc

/-- A step that keeps the shape of every slot keeps the invariant. -/
theorem ParentOk.of_shape (hinv : ParentOk s) (h : ∀ j, SlotShape (s.procs j) (s'.procs j)) :
    ParentOk s' := by
  refine ⟨(h initproc).1.mpr hinv.init_alive, fun j hj hc => ?_⟩
  have hc₀ : (s.procs j).state.Alive ∨ (s.procs j).state = .zombie := by
    rcases hc with hc | hc
    · exact .inl ((h j).1.mp hc)
    · exact .inr ((h j).2.1.mp hc)
  obtain ⟨r, hr, hra⟩ := hinv.parent_alive j hj hc₀
  refine ⟨r, ?_, (h r).1.mpr hra⟩
  rw [(h j).2.2 hc₀]
  exact hr

/-- A step that writes one slot in a way that keeps its shape keeps the shape of every slot. -/
theorem slotShape_update {j : Fin NPROC} {p' : Proc}
    (hprocs : s'.procs = Function.update s.procs j p') (h : SlotShape (s.procs j) p')
    (k : Fin NPROC) :
    SlotShape (s.procs k) (s'.procs k) := by
  rw [hprocs]
  by_cases hk : k = j
  · subst hk
    simpa using h
  · rw [Function.update_of_ne hk]
    exact slotShape_of_eq rfl rfl

theorem slotShape_wakeupProcs (me : Option (Fin NPROC)) (chan : Chan) (ps : Fin NPROC → Proc)
    (j : Fin NPROC) : SlotShape (ps j) (wakeupProcs me chan ps j) := by
  rcases wakeupProcs_cases me chan ps j with h | ⟨hsl, -, -, h⟩
  · rw [h]
    exact slotShape_of_eq rfl rfl
  · rw [h]
    exact slotShape_of_alive (.inl hsl) (.inr (.inl rfl)) rfl

/-- A running process that gives up the CPU as RUNNABLE or SLEEPING keeps its shape. -/
theorem slotShape_giveUp {c : Fin n} {r : Fin NPROC} {k : Ret} {p : Proc}
    (h : s.giveUp c r k p = some s') (hr : (s.procs r).state = .running)
    (hst : p.state = .runnable ∨ p.state = .sleeping) (hpar : p.parent = (s.procs r).parent)
    (j : Fin NPROC) :
    SlotShape (s.procs j) (s'.procs j) := by
  obtain ⟨p', pc, hx, rfl⟩ := giveUp_eq h
  have hprocs : ((s.setProc r p').setCpu c ⟨none, pc⟩).procs = Function.update s.procs r p' := rfl
  refine slotShape_update hprocs ?_ j
  refine slotShape_of_alive (.inr (.inr hr)) ?_ (by rw [afterSwtch_frame hx]; exact hpar)
  rw [afterSwtch_state hx]
  rcases hst with hst | hst <;> simp [Procstate.Alive, hst]

theorem slotShape_kkill (pid : Int32) (j : Fin NPROC) :
    SlotShape (s.procs j) ((s.kkill pid).procs j) := by
  rcases kkill_cases s pid with h | ⟨j', -, h⟩
  · rw [h]
    exact slotShape_of_eq rfl rfl
  · refine slotShape_update (by rw [h]; rfl) ?_ j
    by_cases hsl : (s.procs j').state = .sleeping
    · exact slotShape_of_alive (.inl hsl) (by simp [hsl, Procstate.Alive]) rfl
    · exact slotShape_of_eq (by simp [hsl]) rfl

/-! ## Steps that change a parent link -/

/-- Writing a slot whose process is not alive keeps the invariant, if a new process there that is
alive or a ZOMBIE gets a parent that is alive. -/
theorem ParentOk.update_dead (hinv : ParentOk s) {j : Fin NPROC} {p' : Proc}
    (hdead : ¬ (s.procs j).state.Alive) (hprocs : s'.procs = Function.update s.procs j p')
    (hp' : p'.state.Alive ∨ p'.state = .zombie →
      ∃ r, r ≠ j ∧ p'.parent = some r ∧ (s.procs r).state.Alive) :
    ParentOk s' := by
  have hne : ∀ r, (s.procs r).state.Alive → r ≠ j := fun r hr hrj => hdead (hrj ▸ hr)
  have hinit := hne initproc hinv.init_alive
  refine ⟨by rw [hprocs, Function.update_of_ne hinit]; exact hinv.init_alive, fun k hk hc => ?_⟩
  rw [hprocs] at hc ⊢
  by_cases hkj : k = j
  · -- the written slot: its new parent is another slot, untouched
    subst hkj
    rw [Function.update_self] at hc ⊢
    obtain ⟨r, hrj, hpar, hr⟩ := hp' hc
    exact ⟨r, hpar, by rw [Function.update_of_ne hrj]; exact hr⟩
  · -- any other slot keeps its parent, which is alive and so not the written slot
    rw [Function.update_of_ne hkj] at hc ⊢
    obtain ⟨r, hpar, hr⟩ := hinv.parent_alive k hk hc
    exact ⟨r, hpar, by rw [Function.update_of_ne (hne r hr)]; exact hr⟩

theorem wakeupProcs_parent (me : Option (Fin NPROC)) (chan : Chan) (ps : Fin NPROC → Proc)
    (j : Fin NPROC) : (wakeupProcs me chan ps j).parent = (ps j).parent := by
  rcases wakeupProcs_cases me chan ps j with h | ⟨-, -, -, h⟩ <;> rw [h]

/-- After `kexit` of `r`: `r` is a ZOMBIE, every child of `r` has moved to `initproc`, and every
other process is as it was or woken. -/
theorem kexit_shape {c : Fin n} {r : Fin NPROC} {k : Ret} {status : Int32}
    (h : s.kexit c r k status = some s') :
    r ≠ initproc ∧ (s'.procs r).state = .zombie ∧
    (∀ j, (s'.procs j).parent =
      if (s.procs j).parent = some r then some initproc else (s.procs j).parent) ∧
    ∀ j, j ≠ r → (s'.procs j).state = (s.procs j).state ∨
      ((s.procs j).state = .sleeping ∧ (s'.procs j).state = .runnable) := by
  obtain ⟨hri, hg⟩ := kexit_eq h
  obtain ⟨p', pc, hx, rfl⟩ := giveUp_eq hg
  refine ⟨hri, ?_, fun j => ?_, fun j hj => ?_⟩
  · simp only [Kernel.setCpu_procs, Kernel.setProc_procs, Function.update_self]
    rw [afterSwtch_state hx]
    rfl
  · obtain ⟨st, hrep, -⟩ := reparent_cases r s.procs j
    by_cases hj : j = r
    · subst hj
      simp only [Kernel.setCpu_procs, Kernel.setProc_procs, Function.update_self]
      rw [afterSwtch_frame hx]
      change (wakeupProcs _ _ _ j).parent = _
      rw [wakeupProcs_parent, hrep]
    · simp only [Kernel.setCpu_procs, Kernel.setProc_procs, Function.update_of_ne hj]
      rw [wakeupProcs_parent, hrep]
  · simp only [Kernel.setCpu_procs, Kernel.setProc_procs, Function.update_of_ne hj]
    obtain ⟨st, hrep, hst⟩ := reparent_cases r s.procs j
    -- `reparent` may wake a process sleeping on `initproc`, the `wakeup` of the parent another
    rcases wakeupProcs_cases (some r) (parentChan (reparent r s.procs r)) (reparent r s.procs) j
      with hw | ⟨hsl, -, -, hw⟩
    · rw [hw, hrep]
      rcases hst with rfl | ⟨hsl', rfl⟩
      · exact .inl rfl
      · exact .inr ⟨hsl', rfl⟩
    · rw [hw]
      rw [hrep] at hsl
      rcases hst with rfl | ⟨-, rfl⟩
      · exact .inr ⟨hsl, rfl⟩
      · cases hsl

/-- `kexit` keeps the invariant: the children of the exiting process move to `initproc`, which
never exits, and its own parent is alive. -/
theorem ParentOk.kexit (hinv : ParentOk s) {c : Fin n} {r : Fin NPROC} {k : Ret} {status : Int32}
    (hrun : (s.procs r).state = .running) (h : s.kexit c r k status = some s') : ParentOk s' := by
  obtain ⟨hri, hzr, hpar, hst⟩ := kexit_shape h
  -- a process other than `r` that was alive still is
  have halive : ∀ j, j ≠ r → (s.procs j).state.Alive → (s'.procs j).state.Alive := by
    intro j hj ha
    rcases hst j hj with he | ⟨-, he⟩
    · rwa [he]
    · exact .inr (.inl he)
  have hinit := halive initproc (Ne.symm hri) hinv.init_alive
  -- the new parent of a process whose parent was alive is alive
  have hnew : ∀ j p, (s.procs j).parent = some p → (s.procs p).state.Alive →
      ∃ r', (s'.procs j).parent = some r' ∧ (s'.procs r').state.Alive := by
    intro j p hp hpa
    by_cases hpr : p = r
    · subst hpr
      exact ⟨initproc, by rw [hpar j, if_pos hp], hinit⟩
    · refine ⟨p, by rw [hpar j, if_neg (by rw [hp]; exact fun h => hpr (Option.some.inj h)), hp],
        halive p hpr hpa⟩
  refine ⟨hinit, fun j hj hc => ?_⟩
  by_cases hjr : j = r
  · subst hjr
    obtain ⟨p, hp, hpa⟩ := hinv.parent_alive j hj (.inl (.inr (.inr hrun)))
    exact hnew j p hp hpa
  · have hc₀ : (s.procs j).state.Alive ∨ (s.procs j).state = .zombie := by
      rcases hst j hjr with he | ⟨hsl, -⟩
      · rwa [he] at hc
      · exact .inl (.inl hsl)
    obtain ⟨p, hp, hpa⟩ := hinv.parent_alive j hj hc₀
    exact hnew j p hp hpa

/-! ## Every step -/

/-- Every step keeps the invariant. -/
theorem ParentOk.step (hinv : ParentOk s) (hex : Exclusive s) {c : Fin n} {a : Act}
    (h : step pol s c a = some s') : ParentOk s' := by
  rcases step_cases h with ⟨-, hs⟩ | ⟨chan, -, rfl⟩ | ⟨t, -, rfl⟩ | ⟨r, k, hr, -, hs⟩
  · rcases schedStep_cases hs with ⟨pc', rfl⟩ | ⟨j, q, pc', -, -, -, rfl⟩ | ⟨j, k, hrun, rfl | rfl⟩
    · exact hinv.of_shape fun j => slotShape_of_eq rfl rfl
    · exact hinv.of_shape (slotShape_update rfl (slotShape_of_eq rfl rfl))
    · refine hinv.of_shape (slotShape_update (Kernel.dispatch_procs _ _ _ _ _) ?_)
      exact slotShape_of_alive (.inr (.inl hrun)) (by simp [Procstate.Alive])
        (by rw [Proc.dispatch_frame])
    · refine hinv.of_shape (slotShape_update (Kernel.dispatch_procs _ _ _ _ _) ?_)
      exact slotShape_of_alive (.inr (.inl hrun)) (by simp [Procstate.Alive])
        (by rw [Proc.dispatchMlfq_frame])
  · exact hinv.of_shape (slotShape_wakeupProcs _ _ _)
  · exact hinv.of_shape fun j => slotShape_of_eq rfl rfl
  · have hrun := hex.running_of_proc c r hr
    cases a with
    | yield =>
      simp only [procStep] at hs
      exact hinv.of_shape (slotShape_giveUp hs hrun (.inl rfl) rfl)
    | sleep chan =>
      simp only [procStep] at hs
      exact hinv.of_shape (slotShape_giveUp hs hrun (.inr rfl) rfl)
    | kexit status => exact hinv.kexit hrun hs
    | kwait =>
      rcases kwait_cases hs with ⟨z, -, -, hz, rfl⟩ | ⟨-, -, hg⟩ | rfl
      · -- the reaped ZOMBIE's slot becomes UNUSED
        refine hinv.update_dead (by simp [Procstate.Alive, hz]) rfl fun hc => ?_
        simp [Proc.freeproc, Procstate.Alive] at hc
      · exact hinv.of_shape (slotShape_giveUp hg hrun (.inr rfl) rfl)
      · exact hinv
    | kfork out =>
      cases hs
      rcases kfork_cases s r out with h | ⟨j, -, hu, ⟨q, h⟩ | ⟨-, h⟩⟩ <;> rw [h]
      · exact hinv
      · exact hinv.of_shape (slotShape_update rfl (slotShape_of_unused hu rfl))
      · -- the child's parent is the forking process, which runs
        have hrj : r ≠ j := fun hrj => by rw [hrj, hu] at hrun; cases hrun
        exact hinv.update_dead (by simp [Procstate.Alive, hu]) rfl
          fun _ => ⟨r, hrj, rfl, .inr (.inr hrun)⟩
    | kkill pid =>
      cases hs
      exact hinv.of_shape (slotShape_kkill pid)
    | setexpected arg | setstcfvals arg =>
      cases hs
      exact hinv.of_shape (slotShape_update rfl (slotShape_of_eq rfl rfl))
    | tick =>
      cases hs
      refine hinv.of_shape (slotShape_update rfl (slotShape_of_eq ?_ ?_)) <;>
        unfold Proc.tick <;> split <;> rfl
    | sched | wakeup _ | clock _ => cases hs

theorem parentOk_of_reachable (h : Reachable pol s) : ParentOk s := by
  induction h with
  | boot t => exact parentOk_boot t
  | step hr hs ih =>
    obtain ⟨c, a, hs⟩ := hs
    exact ih.step (exclusive_of_reachable hr) hs

/-- In every reachable state a ZOMBIE's parent is alive, and the scan of its `kwait` finds a
ZOMBIE child. -/
theorem ParentOk.zombie_reapable (hinv : ParentOk s) {j : Fin NPROC}
    (hz : (s.procs j).state = .zombie) :
    ∃ r, (s.procs j).parent = some r ∧ (s.procs r).state.Alive ∧
      (firstZombieChild s.procs r).isSome := by
  have hj : j ≠ initproc := by
    rintro rfl
    have h := hinv.init_alive
    simp [hz, Procstate.Alive] at h
  obtain ⟨r, hpar, hr⟩ := hinv.parent_alive j hj (.inr hz)
  refine ⟨r, hpar, hr, ?_⟩
  simp only [firstZombieChild, List.find?_isSome]
  exact ⟨j, List.mem_finRange j, by simp [hpar, hz]⟩

/-! ## Pids -/

/-- A slot that holds a process after a step held it before, with the same pid, or is the slot
`kfork` took, with the pid `allocpid` handed out. -/
theorem SlotStep.pid_of_live {c : Fin n} {a : Act} {j : Fin NPROC}
    (hrun : ∀ c r, (s.cpus c).proc = some r → (s.procs r).state = .running)
    (h : SlotStep s s' c a j) (hj : (s'.procs j).state ≠ .unused) :
    ((s.procs j).state ≠ .unused ∧ (s'.procs j).pid = (s.procs j).pid) ∨
    (firstUnused s.procs = some j ∧ (s'.procs j).pid = s.nextpid) := by
  rcases h.ident hrun with ⟨-, hpid, hu⟩ | ⟨hu, -, -⟩ | ⟨-, -, -, hpid, hfirst⟩
  · exact .inl ⟨fun h => hj (hu h), hpid⟩
  · exact absurd hu hj
  · exact .inr ⟨hfirst, hpid⟩

/-- No two processes share a pid. -/
def PidUnique (s : Kernel n) : Prop :=
  ∀ i j, (s.procs i).state ≠ .unused → (s.procs j).state ≠ .unused →
    (s.procs i).pid = (s.procs j).pid → i = j

theorem pidUnique_boot (t : UInt64) : PidUnique (Kernel.boot t : Kernel n) := by
  have hinit : ∀ k, ((Kernel.boot t : Kernel n).procs k).state ≠ .unused → k = initproc := by
    intro k hk
    by_contra hne
    simp [Kernel.boot, hne, Proc.unused] at hk
  intro i j hi hj _
  rw [hinit i hi, hinit j hj]

/-- A step keeps pids apart: an old process keeps its pid, which is below `nextpid`; the one new
process, in the slot `allocproc` found first, gets `nextpid`. -/
theorem PidUnique.step (hu : PidUnique s) (hwf : Wf pol s) {c : Fin n} {a : Act}
    (h : step pol s c a = some s') : PidUnique s' := by
  intro i j hi hj hpid
  have hlt := hwf.pid_lt
  rcases (step_slotStep h i).pid_of_live hwf.excl.running_of_proc hi with ⟨hi₀, hpi⟩ | ⟨hfi, hpi⟩
  · rcases (step_slotStep h j).pid_of_live hwf.excl.running_of_proc hj with ⟨hj₀, hpj⟩ | ⟨-, hpj⟩
    · exact hu i j hi₀ hj₀ (by rw [← hpi, ← hpj]; exact hpid)
    · have := hlt i
      omega
  · rcases (step_slotStep h j).pid_of_live hwf.excl.running_of_proc hj with ⟨-, hpj⟩ | ⟨hfj, hpj⟩
    · have := hlt j
      omega
    · exact Option.some.inj (hfi.symm.trans hfj)

theorem pidUnique_of_reachable (h : Reachable pol s) : PidUnique s := by
  induction h with
  | boot t => exact pidUnique_boot t
  | step hr hs ih =>
    obtain ⟨c, a, hs⟩ := hs
    exact ih.step (wf_of_reachable hr) hs

/-! ## Reaping -/

/-- The step from `s` to `s'` frees a ZOMBIE whose pid is `pid`. -/
def Reaps (s s' : Kernel n) (pid : Int) : Prop :=
  ∃ z, (s.procs z).state = .zombie ∧ (s.procs z).pid = pid ∧ (s'.procs z).state = .unused

instance (s s' : Kernel n) (pid : Int) : Decidable (Reaps s s' pid) :=
  inferInstanceAs (Decidable (∃ _ : Fin NPROC, _))

/-- `kwait` of the process `r` whose scan finds the ZOMBIE child `z` frees `z` and nothing else. -/
theorem step_kwait_reap {c : Fin n} {r z : Fin NPROC} (hc : (s.cpus c).proc = some r)
    (hz : firstZombieChild s.procs r = some z) (h : step pol s c .kwait = some s') :
    s' = s.setProc z (s.procs z).freeproc := by
  simp only [step] at h
  split at h
  · rename_i r' k hr' _
    obtain rfl : r' = r := Option.some.inj (hr'.symm.trans hc)
    simp only [procStep, Kernel.kwait, hz, Option.some.injEq] at h
    exact h.symm
  · cases h

/-- Only `kwait` frees a ZOMBIE: the `kwait` of its parent, whose scan found it first. -/
theorem step_reaps {c : Fin n} {a : Act} (h : step pol s c a = some s') {z : Fin NPROC}
    (hz : (s.procs z).state = .zombie) (hz' : (s'.procs z).state = .unused) :
    ∃ r, (s.cpus c).proc = some r ∧ a = .kwait ∧ firstZombieChild s.procs r = some z := by
  cases step_slotStep h z with
  | reap r hc _ _ _ ha hfirst => exact ⟨r, hc, ha, hfirst⟩
  | same h' => rw [h', hz] at hz'; cases hz'
  | dispatch hrun _ | dispatchMlfq hrun _ | age _ hrun _ _ _ => rw [hz] at hrun; cases hrun
  | yield k pc hc h' | sleep k pc chan hc h' | exit k pc par status hc h' =>
    rw [afterSwtch_state h'] at hz'
    cases hz'
  | relink par st _ hst h' =>
    rw [h'] at hz'
    rcases hst with rfl | ⟨hsl, -⟩
    · rw [hz] at hz'; cases hz'
    · rw [hz] at hsl; cases hsl
  | fork r _ hunused | forkFail q hunused => rw [hz] at hunused; cases hunused
  | kill pid _ h' => simp [h', hz] at hz'
  | setexpected arg _ _ h' | setstcfvals arg _ _ h' =>
    simp [h', hz, Proc.setexpected, Proc.setstcfvals] at hz'
  | tick _ h' =>
    rw [h'] at hz'
    unfold Proc.tick at hz'
    split at hz' <;> simp [hz] at hz'

/-- Whether `pid` has been handed out and is held by no process any more: once it is, it stays
so, since `allocpid` only hands out pids above it. -/
def pidGone (pid : Int) (s : Kernel n) : Nat :=
  if pid < s.nextpid ∧ ∀ j, (s.procs j).state ≠ .unused → (s.procs j).pid ≠ pid then 1 else 0

/-- After a step no process has `pid` if every process that had it before is UNUSED after it:
old processes keep their pids, and the new one gets `nextpid`, which lies above `pid`. -/
theorem pid_absent_step (hwf : Wf pol s) {c : Fin n} {a : Act} (h : step pol s c a = some s')
    {pid : Int} (hlt : pid < s.nextpid)
    (hold : ∀ j, (s.procs j).state ≠ .unused → (s.procs j).pid = pid →
      (s'.procs j).state = .unused) :
    pid < s'.nextpid ∧ ∀ j, (s'.procs j).state ≠ .unused → (s'.procs j).pid ≠ pid := by
  have hnext : s.nextpid ≤ s'.nextpid := by
    rcases step_nextpid h with hn | hn <;> omega
  refine ⟨by omega, fun j hj hpid => ?_⟩
  rcases (step_slotStep h j).pid_of_live hwf.excl.running_of_proc hj with ⟨hj₀, hpj⟩ | ⟨-, hpj⟩
  · exact hj (hold j hj₀ (hpj ▸ hpid))
  · omega

theorem pidGone_step (hwf : Wf pol s) (h : Step pol s s') (pid : Int) :
    pidGone pid s ≤ pidGone pid s' := by
  obtain ⟨c, a, h⟩ := h
  unfold pidGone
  split
  · rename_i hg
    rw [if_pos (pid_absent_step hwf h hg.1 fun j hj hpid => absurd hpid (hg.2 j hj))]
  · exact Nat.zero_le _

/-- A step that frees a ZOMBIE with pid `pid` makes `pid` gone: pids are unique, so the ZOMBIE
was the only process with it. -/
theorem pidGone_reaps (hwf : Wf pol s) (hu : PidUnique s) (h : Step pol s s') {pid : Int}
    (hr : Reaps s s' pid) : pidGone pid s = 0 ∧ 0 < pidGone pid s' := by
  obtain ⟨c, a, h⟩ := h
  obtain ⟨z, hz, hpid, hz'⟩ := hr
  have hzu : (s.procs z).state ≠ .unused := by simp [hz]
  refine ⟨if_neg fun hg => hg.2 z hzu hpid, ?_⟩
  have hgone := pid_absent_step hwf h (hpid ▸ hwf.pid_lt z) fun j hj hpj => by
    obtain rfl : j = z := hu j z hj hzu (hpj.trans hpid.symm)
    exact hz'
  rw [pidGone, if_pos hgone]
  exact Nat.one_pos

/-- Along every run from a reachable state, a ZOMBIE with a given pid is freed at most once. -/
theorem reaps_le_one {s₀ : Kernel n} {l : List (Kernel n)} (hs₀ : Reachable pol s₀)
    (hl : (s₀ :: l).IsChain (Step pol)) (pid : Int) :
    (adj (s₀ :: l)).countP (fun x => decide (Reaps x.1 x.2 pid)) ≤ 1 := by
  have hreach := reachable_of_run (fun _ _ h => h) hs₀ hl
  have hR : (s₀ :: l).IsChain (fun x y => Step pol x y ∧ Reachable pol x) :=
    isChain_of_forall_adj fun x y hxy =>
      ⟨IsChain.rel_of_mem_adj hl hxy, hreach x (mem_of_mem_adj hxy).1⟩
  exact IsChain.countP_adj_le_one (fun _ _ ⟨h, hx⟩ => pidGone_step (wf_of_reachable hx) h pid)
    (fun _ _ ⟨h, hx⟩ hr => pidGone_reaps (wf_of_reachable hx) (pidUnique_of_reachable hx) h hr) hR

/-! ## Parent links and reaping together -/

/-- In every reachable state, under every policy: `initproc` is alive and every other process
that is alive or a ZOMBIE has a parent that is alive (SLEEPING, RUNNABLE or RUNNING: neither
UNUSED nor ZOMBIE); the parent of a ZOMBIE finds a ZOMBIE child in `kwait`; `kwait` frees exactly
the ZOMBIE whose pid it returns, which no other process has; only `kwait` frees a ZOMBIE; and
along every run from there a ZOMBIE with a given pid is freed, and its pid returned, at most
once. -/
theorem live_parent_reaps_once {s : Kernel n} (h : Reachable pol s) :
    (s.procs initproc).state.Alive ∧
    (∀ j, j ≠ initproc → (s.procs j).state.Alive ∨ (s.procs j).state = .zombie →
      ∃ r, (s.procs j).parent = some r ∧ (s.procs r).state.Alive) ∧
    (∀ j, (s.procs j).state = .zombie → ∃ r, (s.procs j).parent = some r ∧
      (s.procs r).state.Alive ∧ (firstZombieChild s.procs r).isSome) ∧
    (∀ c r z s', (s.cpus c).proc = some r → firstZombieChild s.procs r = some z →
      step pol s c .kwait = some s' →
      s' = s.setProc z (s.procs z).freeproc ∧ (s.procs z).state = .zombie ∧
        (s.procs z).parent = some r ∧ Reaps s s' (s.procs z).pid ∧
        ∀ j, (s.procs j).state ≠ .unused → (s.procs j).pid = (s.procs z).pid → j = z) ∧
    (∀ c a s' z, step pol s c a = some s' → (s.procs z).state = .zombie →
      (s'.procs z).state = .unused →
      ∃ r, (s.cpus c).proc = some r ∧ a = .kwait ∧ firstZombieChild s.procs r = some z) ∧
    (∀ l, (s :: l).IsChain (Step pol) → ∀ pid,
      (adj (s :: l)).countP (fun x => decide (Reaps x.1 x.2 pid)) ≤ 1) := by
  have hinv := parentOk_of_reachable h
  refine ⟨hinv.init_alive, hinv.parent_alive, fun j hz => hinv.zombie_reapable hz,
    fun c r z s' hc hz hs => ?_, fun c a s' z hs hz hz' => step_reaps hs hz hz',
    fun l hl pid => reaps_le_one h hl pid⟩
  obtain ⟨hpar, hzombie⟩ := firstZombieChild_spec hz
  have hs' := step_kwait_reap hc hz hs
  refine ⟨hs', hzombie, hpar, ⟨z, hzombie, rfl, by simp [hs', Proc.freeproc]⟩, fun j hj hpid => ?_⟩
  exact pidUnique_of_reachable h j z hj (by simp [hzombie]) hpid

/-- Under RR, init forks a child into slot 1 and yields; the round dispatches the child, which
exits. -/
def rrZombie : Kernel 1 :=
  runTo .rr (Kernel.boot 0)
    [(cpu0, .sched), (cpu0, .sched), (cpu0, .kfork .ok), (cpu0, .yield), (cpu0, .sched),
      (cpu0, .kexit 0)]

theorem live_parent_reaps_once_zombie :
    (rrZombie.procs initproc).state.Alive ∧
    (∀ j, j ≠ initproc → (rrZombie.procs j).state.Alive ∨ (rrZombie.procs j).state = .zombie →
      ∃ r, (rrZombie.procs j).parent = some r ∧ (rrZombie.procs r).state.Alive) ∧
    (∀ j, (rrZombie.procs j).state = .zombie → ∃ r, (rrZombie.procs j).parent = some r ∧
      (rrZombie.procs r).state.Alive ∧ (firstZombieChild rrZombie.procs r).isSome) ∧
    (∀ c r z s', (rrZombie.cpus c).proc = some r → firstZombieChild rrZombie.procs r = some z →
      step .rr rrZombie c .kwait = some s' →
      s' = rrZombie.setProc z (rrZombie.procs z).freeproc ∧ (rrZombie.procs z).state = .zombie ∧
        (rrZombie.procs z).parent = some r ∧ Reaps rrZombie s' (rrZombie.procs z).pid ∧
        ∀ j, (rrZombie.procs j).state ≠ .unused → (rrZombie.procs j).pid = (rrZombie.procs z).pid →
          j = z) ∧
    (∀ c a s' z, step .rr rrZombie c a = some s' → (rrZombie.procs z).state = .zombie →
      (s'.procs z).state = .unused →
      ∃ r, (rrZombie.cpus c).proc = some r ∧ a = .kwait ∧
        firstZombieChild rrZombie.procs r = some z) ∧
    (∀ l, (rrZombie :: l).IsChain (Step .rr) → ∀ pid,
      (adj (rrZombie :: l)).countP (fun x => decide (Reaps x.1 x.2 pid)) ≤ 1) :=
  have hr : Reachable .rr rrZombie := reachable_runTo (.boot 0) _
  live_parent_reaps_once hr

example : (rrZombie.procs 1).state = .zombie ∧ (rrZombie.procs 1).parent = some initproc := by
  decide

/-! ## `kkill` of a pid no process has -/

/-- What `freeproc` leaves in an UNUSED slot besides `killed`: pid 0, no parent, no channel. -/
def Proc.Cleared (p : Proc) : Prop :=
  p.state = .unused → p.pid = 0 ∧ p.parent = none ∧ p.chan = .null

/-- Every step keeps a slot cleared: a process that is not UNUSED cannot become UNUSED other
than through `freeproc`, and `reparent` and `kkill` leave an UNUSED slot's pid, parent and
channel alone. -/
theorem SlotStep.cleared {c : Fin n} {a : Act} {j : Fin NPROC}
    (hrun : ∀ c r, (s.cpus c).proc = some r → (s.procs r).state = .running)
    (h : SlotStep s s' c a j) (hj : (s.procs j).Cleared) : (s'.procs j).Cleared := by
  intro hu
  cases h with
  | same h =>
    rw [h] at hu ⊢
    exact hj hu
  | dispatch _ h | dispatchMlfq _ h =>
    rw [h] at hu
    simp at hu
  | age q hr _ _ h =>
    rw [h] at hu
    simp [hr] at hu
  | yield k pc _ h | sleep k pc chan _ h | exit k pc par status _ h =>
    rw [afterSwtch_state h] at hu
    simp [Proc.kexitAccount] at hu
  | relink par st hpar hst h =>
    rw [h] at hu ⊢
    -- `wakeup` only wakes a SLEEPING process, so the slot was UNUSED before
    have hold : (s.procs j).state = .unused := by
      rcases hst with rfl | ⟨-, rfl⟩
      · exact hu
      · cases hu
    obtain ⟨hpid, hpar₀, hchan⟩ := hj hold
    refine ⟨hpid, ?_, hchan⟩
    rcases hpar with rfl | ⟨r, -, hr, -⟩
    · exact hpar₀
    · rw [hpar₀] at hr
      cases hr
  | reap r _ _ _ h | forkFail q _ _ h =>
    rw [h]
    simp [Proc.freeproc]
  | fork r _ _ _ h =>
    rw [h] at hu
    simp at hu
  | kill pid _ h =>
    rw [h] at hu ⊢
    have hold : (s.procs j).state = .unused := by
      by_cases hsl : (s.procs j).state = .sleeping
      · simp [hsl] at hu
      · simpa [hsl] using hu
    exact hj hold
  | setexpected arg _ hc h | setstcfvals arg _ hc h | tick hc h =>
    -- the process's own operations reach a RUNNING slot only
    have hr := hrun c j hc
    rw [h] at hu
    simp [Proc.setexpected, Proc.setstcfvals, Proc.tick, hr] at hu

/-- In every reachable state every UNUSED slot has pid 0, no parent and no channel. -/
theorem cleared_of_reachable (h : Reachable pol s) (j : Fin NPROC) : (s.procs j).Cleared := by
  induction h with
  | boot t =>
    intro hu
    by_cases hj : j = initproc
    · simp [Kernel.boot, hj, initProc] at hu
    · simp [Kernel.boot, hj, Proc.unused]
  | step hr hs ih =>
    obtain ⟨c, a, hs⟩ := hs
    exact (step_slotStep hs j).cleared (exclusive_of_reachable hr).running_of_proc ih

/-- `allocproc` does not write `killed`: a `kfork` child starts with the `killed` of the slot it
was given. -/
theorem kfork_child_killed (r : Fin NPROC) {j : Fin NPROC} (hj : firstUnused s.procs = some j) :
    ((s.kfork r .ok).procs j).killed = (s.procs j).killed := by
  simp [Kernel.kfork, hj, Proc.allocInit, Proc.allocStart]

/-- `kkill(pid)` marks the first slot whose pid field is `pid` killed, and an UNUSED one stays
UNUSED: the scan does not look at the state. -/
theorem kkill_marks_first {pid : Int32} {j : Fin NPROC}
    (hj : firstWithPid s.procs pid.toInt = some j) :
    ((s.kkill pid).procs j).killed = 1 ∧
      ((s.procs j).state = .unused → ((s.kkill pid).procs j).state = .unused) := by
  refine ⟨by simp [Kernel.kkill, hj], fun hu => ?_⟩
  simp [Kernel.kkill, hj, hu]

/-- Init, dispatched by the first round, calls `kkill(0)`, what `kill` passes for an argument that
is not a number (`atoi`): the scan stops at slot 1, which is UNUSED with pid 0. -/
def killedFree : Kernel 1 :=
  runTo .rr (Kernel.boot 0) [(cpu0, .sched), (cpu0, .sched), (cpu0, .kkill 0)]

/-- `kkill(0)` takes its found branch (the one that returns 0) on the UNUSED slot 1 and marks it
killed; the next `kfork` hands the slot out as a RUNNABLE child of init that is killed before it
ever runs. -/
theorem kkill_zero_marks_free_slot :
    Reachable .rr killedFree ∧
    firstWithPid (runTo .rr (Kernel.boot 0) [(cpu0, .sched), (cpu0, .sched)]).procs 0 = some 1 ∧
    (killedFree.procs 1).state = .unused ∧ (killedFree.procs 1).killed = 1 ∧
    ((runTo .rr killedFree [(cpu0, .kfork .ok)]).procs 1).state = .runnable ∧
    ((runTo .rr killedFree [(cpu0, .kfork .ok)]).procs 1).parent = some initproc ∧
    ((runTo .rr killedFree [(cpu0, .kfork .ok)]).procs 1).killed = 1 :=
  ⟨reachable_runTo (.boot 0) _, by decide, by decide, by decide, by decide, by decide, by decide⟩

end Xv6.Sched
