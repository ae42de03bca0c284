import Mathlib

/-!
# Xv6.Lib.Scan — scans that keep the best candidate seen so far

A loop over the indices `0, 1, …` keeps a selection and replaces it by the element it reads when
that element is a candidate and strictly better, by a strict order `lt`, than the selection (or
there is no selection yet). After the indices below `i` are read, no candidate among them is
strictly better than the selection (`BestSoFar`); after the whole range, no candidate at all.

Nothing here refers to a particular system.
-/

namespace Xv6.Lib

variable {ι β : Type*} {lt : β → β → Prop} {cand : ι → Prop} {f : ι → β} {idx : ι → Nat}

/-- After the indices below `i` are read, every candidate read is matched by the selection: there
is one, and the candidate is not strictly better than it. -/
def BestSoFar (lt : β → β → Prop) (cand : ι → Prop) (f : ι → β) (idx : ι → Nat) (i : Nat)
    (sel : Option ι) : Prop :=
  ∀ k, idx k < i → cand k → ∃ j, sel = some j ∧ ¬ lt (f k) (f j)

theorem bestSoFar_zero : BestSoFar lt cand f idx 0 none :=
  fun _ hk => absurd hk (Nat.not_lt_zero _)

/-- Reading the element `j` at index `i`: it becomes the selection when it is a candidate strictly
better than the selection, else the selection stays. -/
theorem BestSoFar.read (htrans : ∀ a b c, lt a b → lt b c → lt a c) (hirr : ∀ a, ¬ lt a a)
    (hidx : Function.Injective idx) {i : Nat} {sel sel' : Option ι}
    (h : BestSoFar lt cand f idx i sel) {j : ι} (hj : idx j = i)
    (hsel : (cand j ∧ ∀ k, sel = some k → lt (f j) (f k)) → sel' = some j)
    (hkeep : ¬ (cand j ∧ ∀ k, sel = some k → lt (f j) (f k)) → sel' = sel) :
    BestSoFar lt cand f idx (i + 1) sel' := by
  intro k hk hck
  by_cases hpick : cand j ∧ ∀ k, sel = some k → lt (f j) (f k)
  · rw [hsel hpick]
    refine ⟨j, rfl, ?_⟩
    by_cases hki : idx k < i
    · -- an earlier candidate was no better than the old selection, which `j` beats
      obtain ⟨j', hj', hnot⟩ := h k hki hck
      exact fun hlt => hnot (htrans _ _ _ hlt (hpick.2 j' hj'))
    · obtain rfl : k = j := hidx (by omega)
      exact hirr _
  · rw [hkeep hpick]
    by_cases hki : idx k < i
    · exact h k hki hck
    · obtain rfl : k = j := hidx (by omega)
      -- `k` is a candidate that did not replace the selection, so there is one it does not beat
      cases sel with
      | none => exact absurd ⟨hck, fun _ h => by cases h⟩ hpick
      | some j' =>
        refine ⟨j', rfl, fun hlt => hpick ⟨hck, fun k' hk' => ?_⟩⟩
        obtain rfl := Option.some.inj hk'
        exact hlt

/-- The selection is a candidate read, strictly better than every candidate read before it: of
the best candidates, it is the first. -/
def FirstSoFar (lt : β → β → Prop) (cand : ι → Prop) (f : ι → β) (idx : ι → Nat) (i : Nat)
    (sel : Option ι) : Prop :=
  ∀ j, sel = some j → cand j ∧ idx j < i ∧ ∀ k, idx k < idx j → cand k → lt (f j) (f k)

theorem firstSoFar_zero : FirstSoFar lt cand f idx 0 none :=
  fun _ h => by cases h

/-- Reading the element `j` at index `i` keeps the selection the first best one, for an order in
which being worse than one element and not worse than another puts them in order. -/
theorem FirstSoFar.read (hsplit : ∀ a b c, lt a b → lt a c ∨ lt c b) {i : Nat}
    {sel sel' : Option ι} (h : FirstSoFar lt cand f idx i sel)
    (hbest : BestSoFar lt cand f idx i sel) {j : ι} (hj : idx j = i)
    (hsel : (cand j ∧ ∀ k, sel = some k → lt (f j) (f k)) → sel' = some j)
    (hkeep : ¬ (cand j ∧ ∀ k, sel = some k → lt (f j) (f k)) → sel' = sel) :
    FirstSoFar lt cand f idx (i + 1) sel' := by
  by_cases hpick : cand j ∧ ∀ k, sel = some k → lt (f j) (f k)
  · rw [hsel hpick]
    rintro j' hj'
    obtain rfl := Option.some.inj hj'
    refine ⟨hpick.1, by omega, fun k hk hck => ?_⟩
    -- an earlier candidate is no better than the old selection, which `j` beats
    obtain ⟨j₀, hj₀, hnot⟩ := hbest k (by omega) hck
    exact (hsplit _ _ (f k) (hpick.2 j₀ hj₀)).resolve_right hnot
  · rw [hkeep hpick]
    intro j' hj'
    obtain ⟨hc, hlt, hfirst⟩ := h j' hj'
    exact ⟨hc, by omega, hfirst⟩

end Xv6.Lib
