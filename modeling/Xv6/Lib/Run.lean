import Mathlib

/-!
# Xv6.Lib.Run — runs of a transition relation

A run of a relation `R` is a list of states in which each one is related to the next
(`List.IsChain R`). Safety properties of a transition system over every run are proved here from
properties of single steps: a guarded form of `List.IsChain.cons_induction`, in which the step
may also use a side condition known of every state of the run, and a counting rule for steps that
cross a fixed level of a measure that never goes down. For a deterministic thread, `k` steps of a
partial step function (`iterateSome`), with the rule for a loop that counts to a bound
(`iterateSome_count`).

Nothing here refers to a particular system.
-/

namespace Xv6.Lib

variable {σ : Type*} {R : σ → σ → Prop}

/-- Runs of two parties index them by `Fin 2`. -/
instance neZero_two : NeZero (2 : Nat) := ⟨by decide⟩

/-! ## The steps of a run -/

/-- The consecutive pairs of a run, i.e. its steps. -/
def adj (l : List σ) : List (σ × σ) := l.zip l.tail

@[simp] theorem adj_nil : adj ([] : List σ) = [] := rfl

@[simp] theorem adj_singleton (a : σ) : adj [a] = [] := rfl

@[simp] theorem adj_cons_cons (a b : σ) (l : List σ) : adj (a :: b :: l) = (a, b) :: adj (b :: l) :=
  rfl

/-- Every step of a run is a step of the relation. -/
theorem IsChain.rel_of_mem_adj {l : List σ} (hl : l.IsChain R) {x y : σ} (h : (x, y) ∈ adj l) :
    R x y := by
  induction l using List.twoStepInduction with
  | nil => simp at h
  | singleton a => simp at h
  | cons_cons a b l _ ih =>
    rw [List.isChain_cons_cons] at hl
    rw [adj_cons_cons, List.mem_cons] at h
    rcases h with h | h
    · obtain ⟨rfl, rfl⟩ := Prod.mk.inj h
      exact hl.1
    · exact ih b hl.2 h

/-- A list whose every step is related is a run of the relation. -/
theorem isChain_of_forall_adj {l : List σ} (h : ∀ x y, (x, y) ∈ adj l → R x y) :
    l.IsChain R := by
  induction l using List.twoStepInduction with
  | nil => exact List.IsChain.nil
  | singleton a => exact List.isChain_singleton a
  | cons_cons a b l _ ih =>
    refine List.IsChain.cons_cons (h a b (by simp)) (ih b fun x y hxy => h x y ?_)
    rw [adj_cons_cons]
    exact List.mem_cons_of_mem _ hxy

/-- Both states of a step of a run belong to the run. -/
theorem mem_of_mem_adj {l : List σ} {x y : σ} (h : (x, y) ∈ adj l) : x ∈ l ∧ y ∈ l := by
  induction l using List.twoStepInduction with
  | nil => simp at h
  | singleton a => simp at h
  | cons_cons a b l _ ih =>
    rw [adj_cons_cons, List.mem_cons] at h
    rcases h with h | h
    · obtain ⟨rfl, rfl⟩ := Prod.mk.inj h
      simp
    · obtain ⟨hx, hy⟩ := ih b h
      exact ⟨List.mem_cons_of_mem _ hx, List.mem_cons_of_mem _ hy⟩

/-! ## Invariants along a run -/

/-- A property that holds at the start of a run and that each step keeps, given a side condition
`H` that holds at every state of the run, holds at every state of the run. -/
theorem IsChain.forall_of_guard {P H : σ → Prop} {a : σ} {l : List σ}
    (hl : (a :: l).IsChain R) (hH : ∀ s ∈ a :: l, H s) (ha : P a)
    (hstep : ∀ s s', R s s' → H s → H s' → P s → P s') : ∀ s ∈ a :: l, P s := by
  have hl' : (a :: l).IsChain fun x y => x ∈ a :: l ∧ y ∈ a :: l ∧ R x y :=
    List.IsChain.iff_mem.mp hl
  intro s hs
  rcases List.mem_cons.mp hs with rfl | hs
  · exact ha
  · refine List.IsChain.cons_induction (fun s => s ∈ a :: l → P s) l hl' ?_ (fun _ => ha) s hs
      (List.mem_cons_of_mem _ hs)
    intro x y ⟨hx, hy, hxy⟩ hPx _
    exact hstep x y hxy (hH x hx) (hH y hy) (hPx hx)

/-! ## Counting steps -/

/-- A step kind `D` that only fires from level `m` of a measure `pos` and lands strictly above it
fires at most once along a run on which `pos` never decreases. -/
theorem IsChain.countP_adj_le_one {pos : σ → ℕ} {D : σ → σ → Prop} [DecidableRel D] {m : ℕ}
    (hmono : ∀ s s', R s s' → pos s ≤ pos s')
    (hD : ∀ s s', R s s' → D s s' → pos s = m ∧ m < pos s') :
    ∀ {l : List σ}, l.IsChain R → (adj l).countP (fun x => decide (D x.1 x.2)) ≤ 1 := by
  -- after the first `D` step every later state is above `m`, so no later step is a `D` step
  have above : ∀ {l : List σ}, l.IsChain R → ∀ a ∈ l.head?, m < pos a →
      (adj l).countP (fun x => decide (D x.1 x.2)) = 0 := by
    intro l hl a ha hlt
    rw [List.countP_eq_zero]
    intro x hx hDx
    obtain ⟨y, z⟩ := x
    have hyz : R y z := IsChain.rel_of_mem_adj hl hx
    have hy : m < pos y := by
      cases l with
      | nil => simp at ha
      | cons b l =>
        simp only [List.head?_cons, Option.mem_def, Option.some.injEq] at ha
        subst ha
        have hchain := List.IsChain.iff_mem.mp hl
        refine (List.mem_cons.mp (mem_of_mem_adj hx).1).elim (fun h => h ▸ hlt) fun hy => ?_
        exact lt_of_lt_of_le hlt
          (List.IsChain.cons_induction (fun s => pos b ≤ pos s) l
            (hchain.imp fun u v h => h.2.2) (fun u v huv hu => hu.trans (hmono u v huv))
            le_rfl y hy)
    exact absurd (hD y z hyz (of_decide_eq_true hDx)).1 (ne_of_gt hy)
  intro l hl
  induction l using List.twoStepInduction with
  | nil => simp
  | singleton a => simp
  | cons_cons a b l _ ih =>
    rw [List.isChain_cons_cons] at hl
    rw [adj_cons_cons, List.countP_cons]
    by_cases hab : D a b
    · have hb : m < pos b := (hD a b hl.1 hab).2
      rw [above hl.2 b rfl hb]
      simp [hab]
    · simpa [hab] using ih b hl.2

/-! ## Runs given as lists of actions -/

/-- Take the steps `as` in order from `s`, stopping at the first that is not enabled. -/
def runSteps {α : Type*} (step : σ → α → Option σ) (s : σ) : List α → σ
  | [] => s
  | a :: as =>
    match step s a with
    | some s' => runSteps step s' as
    | none => s

/-- A property that every enabled step keeps holds wherever a run of steps leads. -/
theorem runSteps_induction {α : Type*} {step : σ → α → Option σ} {P : σ → Prop}
    (hstep : ∀ s a s', P s → step s a = some s' → P s') :
    ∀ (as : List α) {s : σ}, P s → P (runSteps step s as)
  | [], _, h => h
  | a :: as, s, h => by
    simp only [runSteps]
    split
    · rename_i s' hs
      exact runSteps_induction hstep as (hstep s a s' h hs)
    · exact h

/-! ## A number of steps of a partial function -/

/-- `k` steps of `f` from `s`, or `none` at the first that is not enabled. -/
def iterateSome (f : σ → Option σ) : Nat → σ → Option σ
  | 0, s => some s
  | k + 1, s => (f s).bind (iterateSome f k)

theorem iterateSome_succ (f : σ → Option σ) (k : Nat) (s : σ) :
    iterateSome f (k + 1) s = (f s).bind (iterateSome f k) := rfl

theorem iterateSome_add (f : σ → Option σ) (k l : Nat) (s : σ) :
    iterateSome f (k + l) s = (iterateSome f k s).bind (iterateSome f l) := by
  induction k generalizing s with
  | zero => simp [iterateSome]
  | succ k ih =>
    rw [Nat.add_right_comm, iterateSome_succ, iterateSome_succ]
    cases f s with
    | none => rfl
    | some s' => exact ih s'

/-- A loop that counts up to `N` one by one, in the state `set i b` at count `i` for some `b`
with `Inv i b`: from any count it reaches `N` in the steps left, with `Inv` there. -/
theorem iterateSome_count {β : Type*} {f : σ → Option σ} {N : Nat} (set : Nat → β → σ)
    (Inv : Nat → β → Prop)
    (hstep : ∀ i b, i < N → Inv i b → ∃ b', f (set i b) = some (set (i + 1) b') ∧ Inv (i + 1) b') :
    ∀ k i b, i + k = N → Inv i b → ∃ b', iterateSome f k (set i b) = some (set N b') ∧ Inv N b' := by
  intro k
  induction k with
  | zero =>
    intro i b hi hinv
    obtain rfl : i = N := by omega
    exact ⟨b, rfl, hinv⟩
  | succ k ih =>
    intro i b hi hinv
    obtain ⟨b₁, hf, hinv₁⟩ := hstep i b (by omega) hinv
    obtain ⟨b', hrun, hinv'⟩ := ih (i + 1) b₁ (by omega) hinv₁
    refine ⟨b', ?_, hinv'⟩
    rw [iterateSome_succ, hf, Option.bind_some, hrun]

end Xv6.Lib
