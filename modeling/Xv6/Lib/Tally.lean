import Mathlib

/-!
# Xv6.Lib.Tally — sums over all threads when one thread moves

A quantity summed over every thread of a finite set changes, when one thread changes, by that
thread's change alone. The lemmas are stated with the two sides added up, so that they hold in
`Nat` without subtraction.
-/

namespace Xv6.Lib

open Finset

variable {ι : Type*} [Fintype ι] [DecidableEq ι]

/-- `g` agrees with `f` away from `c`: the sums differ by what `c` contributes. -/
theorem sum_add_eq_of_agree {f g : ι → Nat} (c : ι) (h : ∀ x, x ≠ c → g x = f x) :
    ∑ x, g x + f c = ∑ x, f x + g c := by
  have hrest : ∑ x ∈ univ.erase c, g x = ∑ x ∈ univ.erase c, f x :=
    Finset.sum_congr rfl fun x hx => h x (Finset.ne_of_mem_erase hx)
  rw [← Finset.add_sum_erase _ _ (Finset.mem_univ c), ← Finset.add_sum_erase _ f (Finset.mem_univ c),
    hrest]
  omega

end Xv6.Lib
