import Mathlib

/-!
# Xv6.Lib.Crash — programs that a crash can cut short

A program is a list of atomic steps; a crash stops it after any number of them, never inside
one. `CrashTriple pre p post crash` says that from a state satisfying `pre`, running all of `p`
ends in `post`, and stopping it after any number of steps leaves a state satisfying `crash`.
Triples compose along `++`, a loop `for i < n` has one for each loop invariant, and the usual
rules of consequence hold.
-/

namespace Xv6.Lib

variable {σ : Type*}

/-- Run the steps of `p` in order. -/
def runAll (p : List (σ → σ)) (s : σ) : σ :=
  p.foldl (fun s f => f s) s

@[simp] theorem runAll_nil (s : σ) : runAll [] s = s := rfl

@[simp] theorem runAll_cons (f : σ → σ) (p : List (σ → σ)) (s : σ) :
    runAll (f :: p) s = runAll p (f s) := rfl

theorem runAll_append (p q : List (σ → σ)) (s : σ) :
    runAll (p ++ q) s = runAll q (runAll p s) := by
  simp [runAll, List.foldl_append]

/-- The loop `for (i = 0; i < n; i++) f(i)`. -/
def loop (n : Nat) (f : Nat → σ → σ) : List (σ → σ) :=
  (List.range n).map f

theorem runAll_loop_succ (n : Nat) (f : Nat → σ → σ) (s : σ) :
    runAll (loop (n + 1) f) s = f n (runAll (loop n f) s) := by
  rw [loop, List.range_succ, List.map_append, runAll_append]
  rfl

/-- A loop cut after `k` steps has run its first `min k n` iterations. -/
theorem loop_take (n k : Nat) (f : Nat → σ → σ) : (loop n f).take k = loop (min k n) f := by
  rw [loop, loop, ← List.map_take, List.take_range]

/-- From `pre`, all of `p` ends in `post`, and `p` cut after any number of steps leaves
`crash`. -/
structure CrashTriple (pre : σ → Prop) (p : List (σ → σ)) (post crash : σ → Prop) : Prop where
  post : ∀ s, pre s → post (runAll p s)
  crash : ∀ s, pre s → ∀ k, crash (runAll (p.take k) s)

variable {pre mid post crash : σ → Prop} {p q : List (σ → σ)}

namespace CrashTriple

theorem nil (h : ∀ s, pre s → crash s) : CrashTriple pre [] pre crash where
  post _ hs := hs
  crash s hs k := by
    rw [List.take_nil]
    exact h s hs

/-- One atomic step: a crash comes before it or after it. -/
theorem step (f : σ → σ) (hpre : ∀ s, pre s → crash s) (hf : ∀ s, pre s → post (f s))
    (hpost : ∀ s, post s → crash s) : CrashTriple pre [f] post crash where
  post s hs := hf s hs
  crash s hs k := by
    cases k with
    | zero => exact hpre s hs
    | succ k =>
      rw [List.take_succ_cons, List.take_nil]
      exact hpost _ (hf s hs)

/-- A crash in `p ++ q` comes in `p`, or after all of `p` in `q`. -/
theorem append (h₁ : CrashTriple pre p mid crash) (h₂ : CrashTriple mid q post crash) :
    CrashTriple pre (p ++ q) post crash where
  post s hs := by
    rw [runAll_append]
    exact h₂.post _ (h₁.post s hs)
  crash s hs k := by
    rw [List.take_append, runAll_append]
    by_cases hk : k ≤ p.length
    · rw [Nat.sub_eq_zero_of_le hk, List.take_zero, runAll_nil]
      exact h₁.crash s hs k
    · have hp : p.take k = p := List.take_of_length_le (by omega)
      rw [hp]
      exact h₂.crash _ (h₁.post s hs) _

/-- The loop `for i < n`, with the invariant `inv i` before iteration `i`. -/
theorem loop {n : Nat} {f : Nat → σ → σ} (inv : Nat → σ → Prop)
    (hstep : ∀ i < n, ∀ s, inv i s → inv (i + 1) (f i s))
    (hcrash : ∀ i ≤ n, ∀ s, inv i s → crash s) :
    CrashTriple (inv 0) (Xv6.Lib.loop n f) (inv n) crash := by
  -- after `i ≤ n` iterations the invariant `inv i` holds
  have hrun : ∀ i ≤ n, ∀ s, inv 0 s → inv i (runAll (Xv6.Lib.loop i f) s) := by
    intro i
    induction i with
    | zero => exact fun _ s hs => hs
    | succ i ih =>
      intro hi s hs
      rw [runAll_loop_succ]
      exact hstep i (by omega) _ (ih (by omega) s hs)
  refine ⟨fun s hs => hrun n (Nat.le_refl n) s hs, fun s hs k => ?_⟩
  rw [loop_take]
  exact hcrash _ (Nat.min_le_right k n) _ (hrun _ (Nat.min_le_right k n) s hs)

theorem mono (h : CrashTriple pre p post crash) {pre' post' crash' : σ → Prop}
    (hpre : ∀ s, pre' s → pre s) (hpost : ∀ s, post s → post' s)
    (hcrash : ∀ s, crash s → crash' s) : CrashTriple pre' p post' crash' where
  post s hs := hpost _ (h.post s (hpre s hs))
  crash s hs k := hcrash _ (h.crash s (hpre s hs) k)

end CrashTriple

end Xv6.Lib
