import Mathlib

/-!
# Xv6.Lib.Loop — invariants of loops that can fail

A `for` loop over a list whose body can fail is `List.foldlM` in `Except`. Its rule is a prefix
invariant: a predicate of the elements done so far and of the state, which each turn keeps
without failing. A turn sees where it stands in the list (`l = pre ++ x :: post`), so that the
invariant can name what has been visited; when the list has no duplicates, `x` is not among
them. When a turn may fail, the rule reads the other way: what every successful turn keeps holds
of the result of a loop that succeeded.

Nothing here refers to a particular program.
-/

namespace Xv6.Lib

universe u

variable {α β ε : Type*}

/-- The loop rule: an invariant of the visited prefix that every turn keeps without failing
holds, with the whole list visited, of the loop's result. -/
theorem foldlM_ok_of_inv {f : β → α → Except ε β} (P : List α → β → Prop) {l : List α}
    (hstep : ∀ pre x post b, l = pre ++ x :: post → P pre b →
      ∃ b', f b x = .ok b' ∧ P (pre ++ [x]) b')
    {b : β} (h : P [] b) : ∃ b', l.foldlM f b = .ok b' ∧ P l b' := by
  -- induction on what is left of the list, the prefix done so far generalised
  suffices key : ∀ post pre b, l = pre ++ post → P pre b →
      ∃ b', post.foldlM f b = .ok b' ∧ P l b' from key l [] b rfl h
  intro post
  induction post with
  | nil =>
    intro pre b hl hb
    exact ⟨b, rfl, by rw [hl, List.append_nil]; exact hb⟩
  | cons x post ih =>
    intro pre b hl hb
    obtain ⟨b', hf, hb'⟩ := hstep pre x post b hl hb
    obtain ⟨b'', hrest, hfin⟩ := ih (pre ++ [x]) b' (by rw [hl, List.append_assoc]; rfl) hb'
    exact ⟨b'', by simpa only [List.foldlM_cons, hf, bind, Except.bind] using hrest, hfin⟩

/-- A bind after a step that succeeded runs the rest on its result. -/
@[simp] theorem ok_bind {γ δ : Type u} (a : γ) (f : γ → Except ε δ) : (Except.ok a >>= f) = f a :=
  rfl

/-- A bind after a step that failed fails with it. -/
@[simp] theorem error_bind {γ δ : Type u} (e : ε) (f : γ → Except ε δ) :
    (Except.error e >>= f) = .error e :=
  rfl

/-- The result of a bind that succeeded comes from a first step that succeeded. -/
theorem bind_eq_ok {γ δ : Type u} {x : Except ε γ} {f : γ → Except ε δ} {b : δ}
    (h : (x >>= f) = .ok b) : ∃ a, x = .ok a ∧ f a = .ok b := by
  cases x with
  | error e => cases h
  | ok a => exact ⟨a, rfl, h⟩

/-- The loop rule for turns that may fail: an invariant of the visited prefix that every
successful turn keeps holds, with the whole list visited, of the result of a loop that
succeeded. -/
theorem foldlM_inv_of_ok {f : β → α → Except ε β} (P : List α → β → Prop) {l : List α}
    (hstep : ∀ pre x post b b', l = pre ++ x :: post → P pre b → f b x = .ok b' →
      P (pre ++ [x]) b')
    {b b' : β} (h : P [] b) (hl : l.foldlM f b = .ok b') : P l b' := by
  -- induction on what is left of the list, the prefix done so far generalised
  suffices key : ∀ post pre b, l = pre ++ post → P pre b → post.foldlM f b = .ok b' → P l b' from
    key l [] b rfl h hl
  intro post
  induction post with
  | nil =>
    intro pre b hpre hb hrun
    cases hrun
    rw [hpre, List.append_nil]
    exact hb
  | cons x post ih =>
    intro pre b hpre hb hrun
    rw [List.foldlM_cons] at hrun
    obtain ⟨b₁, hf, hrest⟩ := bind_eq_ok hrun
    exact ih (pre ++ [x]) b₁ (by rw [hpre, List.append_assoc]; rfl) (hstep pre x post b b₁ hpre hb hf)
      hrest

/-- In a list without duplicates, the element a turn visits is not among those before it. -/
theorem not_mem_pre_of_nodup {l pre post : List α} {x : α} (hl : l.Nodup)
    (h : l = pre ++ x :: post) : x ∉ pre := fun hx => by
  rw [h] at hl
  exact (List.nodup_append.mp hl).2.2 x hx x List.mem_cons_self rfl

end Xv6.Lib
