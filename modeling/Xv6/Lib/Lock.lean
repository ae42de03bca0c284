import Mathlib

/-!
# Xv6.Lib.Lock — a spinlock and the threads around it

Threads run programs whose points either hold one lock or do not. `LockOk Holds lock pc` says
that the lock's owner field names exactly the thread whose point holds it. Every step of such a
program moves one thread, and moves the lock in one of four ways: the owner stays at a holding
point, the owner releases, a thread takes the free lock, or a thread outside the critical
section moves elsewhere outside it. One lemma for each keeps `LockOk`.
-/

namespace Xv6.Lib

variable {ι π : Type*} (Holds : π → Prop)

/-- The lock is owned by exactly the thread whose program point holds it. -/
def LockOk (lock : Option ι) (pc : ι → π) : Prop :=
  ∀ c, lock = some c ↔ Holds (pc c)

variable {Holds} {lock : Option ι} {pc : ι → π} {c : ι} {p : π}

/-- While `c` owns the lock, no other thread is at a point that holds it. -/
theorem LockOk.not_holds (h : LockOk Holds lock pc) (hc : lock = some c) {c' : ι}
    (hne : c' ≠ c) : ¬ Holds (pc c') := by
  intro hh
  have hc' := (h c').mpr hh
  rw [hc] at hc'
  exact hne (Option.some.inj hc').symm

/-- While the lock is free, no thread is at a point that holds it. -/
theorem LockOk.not_holds_of_free (h : LockOk Holds none pc) (c' : ι) : ¬ Holds (pc c') := by
  intro hh
  cases (h c').mpr hh

variable [DecidableEq ι]

/-- The owner moves to another point that holds the lock. -/
theorem LockOk.keep (h : LockOk Holds lock pc) (hc : lock = some c) (hp : Holds p) :
    LockOk Holds lock (Function.update pc c p) := by
  intro c'
  by_cases hc' : c' = c
  · subst hc'
    rw [Function.update_self]
    exact iff_of_true hc hp
  · rw [Function.update_of_ne hc']
    exact h c'

/-- The owner releases the lock. -/
theorem LockOk.release (h : LockOk Holds lock pc) (hc : lock = some c) (hp : ¬ Holds p) :
    LockOk Holds none (Function.update pc c p) := by
  intro c'
  by_cases hc' : c' = c
  · subst hc'
    rw [Function.update_self]
    exact iff_of_false (by simp) hp
  · rw [Function.update_of_ne hc']
    exact iff_of_false (by simp) (h.not_holds hc hc')

/-- A thread takes the free lock. -/
theorem LockOk.acquire (h : LockOk Holds none pc) (hp : Holds p) :
    LockOk Holds (some c) (Function.update pc c p) := by
  intro c'
  by_cases hc' : c' = c
  · subst hc'
    rw [Function.update_self]
    exact iff_of_true rfl hp
  · rw [Function.update_of_ne hc']
    exact iff_of_false (fun he => hc' (Option.some.inj he).symm) (h.not_holds_of_free c')

/-- A thread outside the critical section moves to another point outside it. -/
theorem LockOk.outside (h : LockOk Holds lock pc) (hc : ¬ Holds (pc c)) (hp : ¬ Holds p) :
    LockOk Holds lock (Function.update pc c p) := by
  intro c'
  by_cases hc' : c' = c
  · subst hc'
    rw [Function.update_self]
    exact iff_of_false (fun hl => hc ((h c').mp hl)) hp
  · rw [Function.update_of_ne hc']
    exact h c'

end Xv6.Lib
