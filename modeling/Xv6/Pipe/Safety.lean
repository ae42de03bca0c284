import Xv6.Pipe.Basic
import Xv6.Lib.Run
import Xv6.Lib.Lock

/-!
# Xv6.Pipe.Safety — counters, bytes and end of file

Every state the callers reach satisfies `Inv`:
- `nwrite - nread`, in `uint` arithmetic, is at most `PIPESIZE`;
- the bytes copied out so far, followed by the bytes in the pipe, are the bytes stored so far;
- `pi->lock` is held by exactly the caller at a point that holds it;
- a reader that has left the `while` loop finds bytes or a closed write end.

The first holds because `pipewrite` stores only below `nread + PIPESIZE` and `piperead` takes
only above `nwrite`. The second holds because both copy one byte at a time at the counters, and
`piperead` advances `nread` only after its `copyout` succeeded. Neither depends on where the
counters stand: `PIPESIZE` divides `2 ^ 32`, so a wrapped counter names the cell the unwrapped
one would.
-/

namespace Xv6.Pipe

open Xv6.Lib

variable {ι : Type*} [DecidableEq ι] {s s' : Sys ι}

theorem Pc.holds_of_outside {pc : Pc} (h : pc.Outside) : ¬ pc.Holds := by
  cases pc <;> simp_all [Pc.Outside, Pc.Holds]

/-! ## The invariant -/

/-- What every reachable state satisfies. -/
structure Inv (s : Sys ι) : Prop where
  count_le : s.pipe.count ≤ PIPESIZE
  history : s.delivered ++ s.pipe.contents = s.stored
  lock_ok : LockOk Pc.Holds s.lock s.pc
  read_start : ∀ c n dst, s.pc c = .read n dst 0 →
    s.pipe.empty = false ∨ s.pipe.writeopen = false

omit [DecidableEq ι] in
theorem inv_init (data : Fin PIPESIZE → UInt8) (killed : ι → Bool) :
    Inv (Sys.init data killed : Sys ι) where
  count_le := by simp [Sys.init, Pipe.alloc, Pipe.count]
  history := by simp [Sys.init, Pipe.alloc, Pipe.contents, Pipe.count]
  lock_ok c := iff_of_false (by simp [Sys.init]) (by simp [Sys.init, Pc.Holds])
  read_start c n dst h := by simp [Sys.init] at h

/-- While `c` holds the lock, only `c` can be in `piperead`'s copy loop. -/
theorem Inv.eq_of_read (hinv : Inv s) {c c' : ι} (hc : s.lock = some c) {n : Int}
    {dst : Nat → Bool} {i : Nat} (hread : s.pc c' = .read n dst i) : c' = c := by
  by_contra hne
  exact hinv.lock_ok.not_holds hc hne (by rw [hread]; trivial)

/-- Only `c` moves, to a point that is not the start of the copy loop, and no other caller holds
the lock: then no caller is at the start of the copy loop. -/
theorem not_read_start {pc : ι → Pc} {c : ι} {pc' : Pc} (hpc : ∀ n dst, pc' ≠ .read n dst 0)
    (hothers : ∀ c', c' ≠ c → ¬ (pc c').Holds) {c' : ι} {n : Int} {dst : Nat → Bool}
    (h : Function.update pc c pc' c' = .read n dst 0) : False := by
  by_cases hc' : c' = c
  · subst hc'
    rw [Function.update_self] at h
    exact hpc n dst h
  · rw [Function.update_of_ne hc'] at h
    exact hothers c' hc' (by rw [h]; trivial)

/-- The holder releases the lock and leaves the pipe alone. -/
theorem Inv.release (hinv : Inv s) {c : ι} (hc : s.lock = some c) {pc : Pc} (hpc : ¬ pc.Holds) :
    Inv (s.release c pc) := by
  refine ⟨hinv.count_le, hinv.history, hinv.lock_ok.release hc hpc, fun c' n dst hread => ?_⟩
  have hnr : ∀ n dst, pc ≠ .read n dst 0 := fun n dst he => hpc (by rw [he]; trivial)
  exact (not_read_start hnr (fun _ => hinv.lock_ok.not_holds hc) hread).elim

/-- A caller acquires the free lock. -/
theorem Inv.acquire (hinv : Inv s) (hlock : s.lock = none) {c : ι} {pc : Pc} (hpc : pc.Holds)
    (hnr : ∀ n dst, pc ≠ .read n dst 0) : Inv { s.setPc c pc with lock := some c } := by
  have hfree : LockOk Pc.Holds none s.pc := hlock ▸ hinv.lock_ok
  refine ⟨hinv.count_le, hinv.history, hfree.acquire hpc, fun c' n dst hread => ?_⟩
  exact (not_read_start hnr (fun c'' _ => hfree.not_holds_of_free c'') hread).elim

/-- The holder moves to another point that holds the lock and leaves the pipe alone. -/
theorem Inv.keep (hinv : Inv s) {c : ι} (hc : s.lock = some c) {pc : Pc} (hpc : pc.Holds)
    (hread : ∀ n dst, pc = .read n dst 0 → s.pipe.empty = false ∨ s.pipe.writeopen = false) :
    Inv (s.setPc c pc) := by
  refine ⟨hinv.count_le, hinv.history, hinv.lock_ok.keep hc hpc, fun c' n dst hc'read => ?_⟩
  simp only [Sys.setPc_pc, Sys.setPc_pipe] at hc'read ⊢
  by_cases hc' : c' = c
  · subst hc'
    rw [Function.update_self] at hc'read
    exact hread n dst hc'read
  · rw [Function.update_of_ne hc'] at hc'read
    exact absurd (hinv.eq_of_read hc hc'read) hc'

/-- `pipewrite` stores one byte in a pipe that is not full. -/
theorem Inv.put (hinv : Inv s) {c : ι} (hc : s.lock = some c) (hfull : s.pipe.full = false)
    (ch : UInt8) (n : Int) (src : Nat → Option UInt8) (i : Nat) :
    Inv { s.setPc c (.write n src (i + 1)) with
      pipe := s.pipe.put ch, stored := s.stored ++ [ch] } := by
  have hlt : s.pipe.count < PIPESIZE := by
    have hne : s.pipe.count ≠ PIPESIZE := fun he => by
      rw [← Pipe.full_iff] at he
      rw [he] at hfull
      cases hfull
    exact lt_of_le_of_ne hinv.count_le hne
  refine ⟨?_, ?_, hinv.lock_ok.keep hc trivial, fun c' n' dst hread => ?_⟩
  · show (s.pipe.put ch).count ≤ PIPESIZE
    rw [Pipe.count_put _ _ hlt]
    exact hlt
  · show s.delivered ++ (s.pipe.put ch).contents = s.stored ++ [ch]
    rw [Pipe.contents_put _ _ hlt, ← List.append_assoc, hinv.history]
  · -- the writer is the only one holding the lock, and it is not reading
    exact (not_read_start (fun _ _ h => by cases h) (fun _ => hinv.lock_ok.not_holds hc) hread).elim

/-- `piperead` copies one byte out of a pipe that is not empty. -/
theorem Inv.take (hinv : Inv s) {c : ι} (hc : s.lock = some c) (hempty : s.pipe.empty = false)
    (n : Int) (dst : Nat → Bool) (i : Nat) :
    Inv { s.setPc c (.read n dst (i + 1)) with
      pipe := s.pipe.take, delivered := s.delivered ++ [s.pipe.head] } := by
  refine ⟨?_, ?_, hinv.lock_ok.keep hc trivial, fun c' n' dst' hread => ?_⟩
  · show s.pipe.take.count ≤ PIPESIZE
    rw [Pipe.count_take _ hempty]
    exact le_trans (Nat.sub_le _ _) hinv.count_le
  · show s.delivered ++ [s.pipe.head] ++ s.pipe.take.contents = s.stored
    rw [List.append_assoc, List.singleton_append, ← Pipe.contents_take _ hempty, hinv.history]
  · -- the reader is the only one holding the lock, and it has copied a byte
    exact (not_read_start (fun _ _ h => by cases h) (fun _ => hinv.lock_ok.not_holds hc) hread).elim

/-! ## Every step -/

theorem Inv.pipewriteLoop (hinv : Inv s) {c : ι} (hc : s.lock = some c) (n : Int)
    (src : Nat → Option UInt8) (i : Nat) : Inv (s.pipewriteLoop c n src i) := by
  have hret : ∀ v, ¬ (Pc.ret v).Holds := fun _ h => h
  unfold Sys.pipewriteLoop
  split
  · split
    · exact hinv.release hc (hret _)
    · split
      · -- full: `sleep` releases the lock
        exact hinv.release hc fun h => h
      · rename_i hfull
        split
        · exact hinv.release hc (hret _)
        · exact hinv.put hc (Bool.eq_false_iff.mpr hfull) _ n src i
  · exact hinv.release hc (hret _)

theorem Inv.pipereadWait (hinv : Inv s) {c : ι} (hc : s.lock = some c) (n : Int)
    (dst : Nat → Bool) : Inv (s.pipereadWait c n dst) := by
  unfold Sys.pipereadWait
  split
  · split
    · exact hinv.release hc fun h => h
    · exact hinv.release hc fun h => h
  · -- the loop ends with bytes in the pipe or with the write end closed
    rename_i hwait
    refine hinv.keep hc trivial fun n' dst' _ => ?_
    cases he : s.pipe.empty <;> simp_all

theorem Inv.pipereadLoop (hinv : Inv s) {c : ι} (hc : s.lock = some c) (n : Int)
    (dst : Nat → Bool) (i : Nat) : Inv (s.pipereadLoop c n dst i) := by
  have hret : ∀ v, ¬ (Pc.ret v).Holds := fun _ h => h
  unfold Sys.pipereadLoop
  split
  · split
    · exact hinv.release hc (hret _)
    · rename_i hempty
      split
      · exact hinv.take hc (Bool.eq_false_iff.mpr hempty) n dst i
      · exact hinv.release hc (hret _)
  · exact hinv.release hc (hret _)

theorem Inv.run (hinv : Inv s) {c : ι} (h : s.run c = some s') : Inv s' := by
  unfold Sys.run at h
  split at h
  · -- `acquire(&pi->lock)` in `pipewrite`
    split at h
    · rename_i n src i hpc hlock
      cases h
      exact hinv.acquire hlock trivial fun _ _ h => by cases h
    · cases h
  · rename_i n src i hpc
    cases h
    exact hinv.pipewriteLoop ((hinv.lock_ok c).mpr (by rw [hpc]; trivial)) n src i
  · -- `acquire(&pi->lock)` in `piperead`
    split at h
    · rename_i n dst hpc hlock
      cases h
      exact hinv.acquire hlock trivial fun _ _ h => by cases h
    · cases h
  · rename_i n dst hpc
    cases h
    exact hinv.pipereadWait ((hinv.lock_ok c).mpr (by rw [hpc]; trivial)) n dst
  · rename_i n dst i hpc
    cases h
    exact hinv.pipereadLoop ((hinv.lock_ok c).mpr (by rw [hpc]; trivial)) n dst i
  · cases h
  · cases h

/-- A call starts, or a process is killed: the pipe and the lock are left alone. -/
theorem Inv.begin (hinv : Inv s) {c : ι} (hout : (s.pc c).Outside) {pc : Pc} (hpc : ¬ pc.Holds) :
    Inv (s.setPc c pc) := by
  refine ⟨hinv.count_le, hinv.history,
    hinv.lock_ok.outside (Pc.holds_of_outside hout) hpc, fun c' n dst hread => ?_⟩
  change Function.update s.pc c pc c' = _ at hread
  by_cases hc' : c' = c
  · subst hc'
    rw [Function.update_self] at hread
    exact absurd (by rw [hread]; trivial) hpc
  · rw [Function.update_of_ne hc'] at hread
    exact hinv.read_start c' n dst hread

/-- Every step keeps the invariant. -/
theorem Inv.step (hinv : Inv s) {c : ι} {a : Act} (h : step s c a = some s') : Inv s' := by
  cases a with
  | pipewrite n src =>
    simp only [Xv6.Pipe.step] at h
    split at h
    · cases h
      exact hinv.begin ‹_› fun h => h
    · cases h
  | piperead n dst =>
    simp only [Xv6.Pipe.step] at h
    split at h
    · cases h
      exact hinv.begin ‹_› fun h => h
    · cases h
  | pipeclose writable =>
    simp only [Xv6.Pipe.step] at h
    split at h
    · rename_i hcond
      cases h
      -- with the lock free no caller is at a point that holds it
      have hfree : LockOk Pc.Holds none s.pc := hcond.2 ▸ hinv.lock_ok
      refine ⟨?_, ?_, hinv.lock_ok, fun c' n dst hread =>
        absurd (by rw [hread]; trivial) (hfree.not_holds_of_free c')⟩
      · unfold Pipe.pipeclose
        split <;> exact hinv.count_le
      · unfold Pipe.pipeclose
        split <;> exact hinv.history
    · cases h
  | run => exact hinv.run h
  | kill =>
    cases h
    exact ⟨hinv.count_le, hinv.history, hinv.lock_ok, hinv.read_start⟩

theorem inv_of_reachable (h : Reachable s) : Inv s := by
  induction h with
  | init data killed => exact inv_init data killed
  | step c a _ hs ih => exact ih.step hs

/-! ## End of file -/

/-- `piperead`'s copy loop returns 0 for a positive `n` only at its first pass, on an empty
pipe: a failed `copyout` at the first pass returns -1 instead. -/
theorem pipereadLoop_ret_zero {c : ι} {n : Int} {dst : Nat → Bool} {i : Nat}
    (h : (s.pipereadLoop c n dst i).pc c = .ret 0) (hn : 0 < n) :
    i = 0 ∧ s.pipe.empty = true := by
  unfold Sys.pipereadLoop at h
  split at h
  · split at h
    · rename_i hempty
      simp only [Sys.release_pc, Function.update_self, Pc.ret.injEq] at h
      exact ⟨by omega, hempty⟩
    · split at h
      · simp at h
      · simp only [Sys.release_pc, Function.update_self, Pc.ret.injEq] at h
        split at h <;> omega
  · simp only [Sys.release_pc, Function.update_self, Pc.ret.injEq] at h
    omega

/-- A read with `n > 0` that returns 0 finds the pipe empty and the write end closed. -/
theorem read_ret_zero (hinv : Inv s) {c : ι} {a : Act} (hs : step s c a = some s')
    {n : Int} {dst : Nat → Bool} {i : Nat} (hpc : s.pc c = .read n dst i)
    (hret : s'.pc c = .ret 0) (hn : 0 < n) :
    s.pipe.nread = s.pipe.nwrite ∧ s.pipe.writeopen = false := by
  have hout : ¬ (s.pc c).Outside := by rw [hpc]; exact id
  cases a with
  | pipewrite | piperead | pipeclose => simp [Xv6.Pipe.step, hout] at hs
  | kill =>
    cases hs
    rw [hpc] at hret
    cases hret
  | run =>
    rw [Xv6.Pipe.step, Sys.run, hpc] at hs
    cases hs
    obtain ⟨rfl, hempty⟩ := pipereadLoop_ret_zero hret hn
    rcases hinv.read_start c n dst hpc with hne | hclosed
    · rw [hempty] at hne
      cases hne
    · exact ⟨beq_iff_eq.mp hempty, hclosed⟩

/-- For any interleaving of `pipewrite`, `piperead` and `pipeclose` calls, `nwrite - nread` stays
within `PIPESIZE`, the bytes that reads copied out are the bytes writes stored, in order, up to
those still in the pipe, and a read of a positive `n` returns 0 only at end of file. -/
theorem pipe_bytes_in_order (h : Reachable s) :
    (s.pipe.nwrite - s.pipe.nread).toNat ≤ PIPESIZE ∧
      s.delivered ++ s.pipe.contents = s.stored ∧ s.delivered <+: s.stored ∧
      ∀ (c : ι) (a : Act) (s' : Sys ι) (n : Int) (dst : Nat → Bool) (i : Nat),
        step s c a = some s' → s.pc c = .read n dst i → s'.pc c = .ret 0 → 0 < n →
        s.pipe.nread = s.pipe.nwrite ∧ s.pipe.writeopen = false := by
  have hinv := inv_of_reachable h
  refine ⟨hinv.count_le, hinv.history, ?_, fun c a s' n dst i hs hpc hret hn =>
    read_ret_zero hinv hs hpc hret hn⟩
  rw [← hinv.history]
  exact List.prefix_append _ _

/-- Runs of steps from a reachable state. -/
theorem reachable_runSteps (h : Reachable s) (as : List (ι × Act)) :
    Reachable (runSteps (fun s x => step s x.1 x.2) s as) :=
  runSteps_induction (fun _ x _ hs hx => .step x.1 x.2 hs hx) as h

/-- Caller 0 writes `"hi"`; caller 1 reads one byte, then asks for two more and gets the
rest. -/
def pipeHi : Sys (Fin 2) :=
  runSteps (fun s x => step s x.1 x.2) (Sys.init (fun _ => 0) fun _ => false)
    [(0, .pipewrite 2 fun i => [104, 105][i]?), (0, .run), (0, .run), (0, .run), (0, .run),
      (1, .piperead 1 fun _ => true), (1, .run), (1, .run), (1, .run), (1, .run),
      (1, .piperead 2 fun _ => true), (1, .run), (1, .run), (1, .run), (1, .run)]

theorem pipeHi_in_order :
    Reachable pipeHi ∧ pipeHi.delivered = [104, 105] ∧ pipeHi.pc 1 = .ret 1 ∧
      ((pipeHi.pipe.nwrite - pipeHi.pipe.nread).toNat ≤ PIPESIZE ∧
      pipeHi.delivered ++ pipeHi.pipe.contents = pipeHi.stored ∧
      pipeHi.delivered <+: pipeHi.stored ∧
      ∀ (c : Fin 2) (a : Act) (s' : Sys (Fin 2)) (n : Int) (dst : Nat → Bool) (i : Nat),
        step pipeHi c a = some s' → pipeHi.pc c = .read n dst i → s'.pc c = .ret 0 → 0 < n →
        pipeHi.pipe.nread = pipeHi.pipe.nwrite ∧ pipeHi.pipe.writeopen = false) := by
  have hr : Reachable pipeHi := reachable_runSteps (.init _ _) _
  exact ⟨hr, by decide, rfl, pipe_bytes_in_order hr⟩

end Xv6.Pipe
