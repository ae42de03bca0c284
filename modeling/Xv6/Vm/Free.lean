import Xv6.Vm.Sbrk

/-!
# Xv6.Vm.Free — tearing down a process's page table

`freewalk` frees the pages of a page table: every entry that leads to a lower table (valid, with
none of `R`, `W`, `X`) is freed below and cleared, a valid leaf is a panic, and the table itself
goes to `kfree` last. `uvmfree` first unmaps and frees the user pages below the size, and
`proc_freepagetable` first unmaps the trampoline and the trapframe, which are not the process's
to free.

`Machine.walkPages d t` lists the pages `freewalk` frees from a table `t` with `d` levels of
tables below it, in the order it frees them, and `Machine.Clean d t` says that it frees them
without a panic: no valid leaf is left, and every table is a page `kfree` takes. Then `freewalk`
puts exactly those pages on the free list, last freed first, and writes nothing outside them
(`freewalk_clean`, by induction on the levels, with the loop over the 512 entries inside).

For a process, `Shape` is what its page table keeps besides `Wf`: an entry that leads to a table
carries no permission bit, the root has nothing at or above `MAXVA`, and every table lies in RAM
above the kernel. With every leaf gone, a tree of that shape is clean, and `walkPages` lists its
tables, each once (`Tree.clean`, `Tree.walkPages_nodup`, `Tree.mem_walkPages`). So
`proc_freepagetable` gives back to the free list exactly the tables and the user frames, each
once (`procFreepagetable_frees`).
-/

namespace Xv6.Vm

open Xv6.Lib

/-! ## The functions -/

/-- One turn of `freewalk`'s loop, at entry `i` of `pagetable`, with `freewalk` one level down. -/
def freewalkEntry (freewalk : Nat → Machine → Except String Machine) (pagetable : Nat)
    (m : Machine) (i : Nat) : Except String Machine :=
  let pte := m.pte (pagetable + 8 * i)
  if pte &&& PTE_V ≠ 0 ∧ pte &&& (PTE_R ||| PTE_W ||| PTE_X) = 0 then do
    -- this PTE points to a lower-level page table.
    let m ← freewalk (PTE2PA pte) m
    pure (m.setPte (pagetable + 8 * i) 0)
  else if pte &&& PTE_V ≠ 0 then throw "freewalk: leaf"
  else pure m

/-- `freewalk(pagetable)` on a table with `depth` levels of tables left below it. The source
recurses without a bound; on a tree of three levels the recursion never goes below the bottom
one, and the error `"freewalk: depth"` stands for what it would do there (`freewalk_clean` shows
that it is not reached). -/
def freewalk : Nat → Nat → Machine → Except String Machine
  | 0, _, _ => throw "freewalk: depth"
  | depth + 1, pagetable, m => do
    -- there are 2^9 = 512 PTEs in a page table.
    let m ← (List.range 512).foldlM (freewalkEntry (freewalk depth) pagetable) m
    kfree m pagetable

/-- `uvmfree(pagetable, sz)`: free the user pages, then the tables of the three levels. -/
def uvmfree (m : Machine) (pagetable sz : Nat) : Except String Machine := do
  let m ← if sz > 0 then uvmunmap m pagetable 0 (PGROUNDUP sz / PGSIZE) true else pure m
  freewalk 3 pagetable m

/-- `proc_freepagetable(pagetable, sz)`: unmap the trampoline and the trapframe without freeing
them, then `uvmfree`. -/
def procFreepagetable (m : Machine) (pagetable sz : Nat) : Except String Machine := do
  let m ← uvmunmap m pagetable TRAMPOLINE 1 false
  let m ← uvmunmap m pagetable TRAPFRAME 1 false
  uvmfree m pagetable sz

/-! ## The pages `freewalk` frees -/

/-- `i` lies in one of the pages of `qs`. -/
def InPages (qs : List Nat) (i : Nat) : Prop := ∃ q ∈ qs, q ≤ i ∧ i < q + PGSIZE

namespace Machine

variable (m : Machine)

/-- The pages `freewalk` frees from the table `t` with `depth` levels below it, in the order it
frees them: the pages below each valid entry, then `t`. -/
def walkPages : Nat → Nat → List Nat
  | 0, t => [t]
  | depth + 1, t => (List.range 512).flatMap (fun i =>
      if m.pte (t + 8 * i) &&& PTE_V ≠ 0 then walkPages depth (PTE2PA (m.pte (t + 8 * i)))
      else []) ++ [t]

/-- The pages below entry `i` of `t`. -/
def below (depth t i : Nat) : List Nat :=
  if m.pte (t + 8 * i) &&& PTE_V ≠ 0 then m.walkPages depth (PTE2PA (m.pte (t + 8 * i))) else []

theorem walkPages_succ (depth t : Nat) :
    m.walkPages (depth + 1) t = (List.range 512).flatMap (m.below depth t) ++ [t] := by
  rw [walkPages]
  rfl

/-- What `kfree` checks of a page. -/
def Freeable (q : Nat) : Prop := q % PGSIZE = 0 ∧ m.kend ≤ q ∧ q < PHYSTOP

/-- `freewalk` frees the table `t` with `depth` levels below it without a panic: the table is a
page `kfree` takes, every entry of a bottom table is invalid, and above the bottom every valid
entry leads, with none of `R`, `W`, `X`, to a clean table. -/
def Clean : Nat → Nat → Prop
  | 0, t => m.Freeable t ∧ ∀ i < 512, m.pte (t + 8 * i) &&& PTE_V = 0
  | depth + 1, t => m.Freeable t ∧ ∀ i < 512, m.pte (t + 8 * i) &&& PTE_V ≠ 0 →
      m.pte (t + 8 * i) &&& (PTE_R ||| PTE_W ||| PTE_X) = 0 ∧
        Clean depth (PTE2PA (m.pte (t + 8 * i)))

end Machine

section Pages

variable {m m' : Machine}

theorem Machine.mem_walkPages_self (depth t : Nat) : t ∈ m.walkPages depth t := by
  cases depth with
  | zero => exact List.mem_singleton_self t
  | succ depth =>
    rw [Machine.walkPages_succ]
    exact List.mem_append_right _ (List.mem_singleton_self t)

/-- Every page a clean walk frees is a page `kfree` takes. -/
theorem Machine.Clean.freeable_of_mem : ∀ {depth t : Nat}, m.Clean depth t →
    ∀ q ∈ m.walkPages depth t, m.Freeable q
  | 0, t, h, q, hq => by
    rw [List.mem_singleton.mp hq]
    exact h.1
  | depth + 1, t, h, q, hq => by
    rw [Machine.walkPages_succ, List.mem_append, List.mem_flatMap] at hq
    rcases hq with ⟨i, hi, hq⟩ | hq
    · unfold Machine.below at hq
      split_ifs at hq with hv
      · exact ((h.2 i (List.mem_range.mp hi) hv).2).freeable_of_mem q hq
      · cases hq
    · rw [List.mem_singleton.mp hq]
      exact h.1

/-- An entry of a table lies in the table's page. -/
theorem entry_mem_own {t i j : Nat} (hi : i < 512) (h1 : t + 8 * i ≤ j) (h2 : j < t + 8 * i + 8) :
    t ≤ j ∧ j < t + PGSIZE := by
  unfold PGSIZE
  omega

/-- Two machines that agree on the pages a walk frees, with the same `end`, free the same pages,
and the walk is clean in both or in neither. -/
theorem Machine.walkPages_congr (hk : m'.kend = m.kend) : ∀ (depth t : Nat),
    (∀ i, InPages (m.walkPages depth t) i → m'.mem i = m.mem i) →
    m'.walkPages depth t = m.walkPages depth t ∧ (m.Clean depth t → m'.Clean depth t) := by
  -- an entry of `t` reads the same, since `t` is among the pages
  have hpte : ∀ depth t, (∀ i, InPages (m.walkPages depth t) i → m'.mem i = m.mem i) →
      ∀ i < 512, m'.pte (t + 8 * i) = m.pte (t + 8 * i) := by
    intro depth t hmem i hi
    exact Machine.pte_congr fun j h1 h2 =>
      hmem j ⟨t, Machine.mem_walkPages_self depth t, entry_mem_own hi h1 h2⟩
  have hfree : ∀ t, m.Freeable t → m'.Freeable t := fun t ⟨h1, h2, h3⟩ => ⟨h1, hk ▸ h2, h3⟩
  intro depth
  induction depth with
  | zero =>
    intro t hmem
    refine ⟨rfl, fun ⟨hf, hinv⟩ => ⟨hfree t hf, fun i hi => ?_⟩⟩
    rw [hpte 0 t hmem i hi]
    exact hinv i hi
  | succ depth ih =>
    intro t hmem
    -- the pages below an entry are among the pages
    have hsub : ∀ i < 512, m.pte (t + 8 * i) &&& PTE_V ≠ 0 → ∀ j,
        InPages (m.walkPages depth (PTE2PA (m.pte (t + 8 * i)))) j → m'.mem j = m.mem j := by
      rintro i hi hv j ⟨q, hq, hj⟩
      refine hmem j ⟨q, ?_, hj⟩
      rw [Machine.walkPages_succ]
      refine List.mem_append_left _ (List.mem_flatMap.mpr ⟨i, List.mem_range.mpr hi, ?_⟩)
      rw [Machine.below, if_pos hv]
      exact hq
    have hbelow : ∀ i ∈ List.range 512, m'.below depth t i = m.below depth t i := by
      intro i hi
      have hi' := List.mem_range.mp hi
      unfold Machine.below
      rw [hpte (depth + 1) t hmem i hi']
      split_ifs with hv
      · exact (ih _ (hsub i hi' hv)).1
      · rfl
    refine ⟨?_, fun ⟨hf, hent⟩ => ⟨hfree t hf, fun i hi hv => ?_⟩⟩
    · rw [Machine.walkPages_succ, Machine.walkPages_succ, List.flatMap_congr hbelow]
    · rw [hpte (depth + 1) t hmem i hi] at hv ⊢
      obtain ⟨hrwx, hc⟩ := hent i hi hv
      exact ⟨hrwx, (ih _ (hsub i hi hv)).2 hc⟩

/-- A byte in a page of `A` lies in no page of `B` when the two lists share no page and all
their pages are aligned. -/
theorem InPages.not_of_disjoint {A B : List Nat} (hal : ∀ q ∈ A ++ B, q % PGSIZE = 0)
    (hd : ∀ a ∈ A, ∀ b ∈ B, a ≠ b) {i : Nat} (hi : InPages A i) : ¬ InPages B i := by
  rintro ⟨b, hb, hib⟩
  obtain ⟨a, ha, hia⟩ := hi
  exact pages_apart (hal a (List.mem_append_left _ ha)) (hal b (List.mem_append_right _ hb))
    (hd a ha b hb) hia hib

end Pages

/-! ## `freewalk` on a clean table -/

section Freewalk

/-- A bottom table: every entry is invalid, so the loop changes nothing. -/
theorem freewalkEntry_invalid {fw : Nat → Machine → Except String Machine} {t : Nat} {m : Machine}
    {i : Nat} (hinv : m.pte (t + 8 * i) &&& PTE_V = 0) : freewalkEntry fw t m i = .ok m := by
  simp only [freewalkEntry, hinv, ne_eq, not_true_eq_false, false_and, if_false]
  rfl

/-- An entry that leads to a table: free below, then clear the entry. -/
theorem freewalkEntry_table {fw : Nat → Machine → Except String Machine} {t : Nat} {m : Machine}
    {i : Nat} (hv : m.pte (t + 8 * i) &&& PTE_V ≠ 0)
    (hrwx : m.pte (t + 8 * i) &&& (PTE_R ||| PTE_W ||| PTE_X) = 0) :
    freewalkEntry fw t m i = (do
      let m ← fw (PTE2PA (m.pte (t + 8 * i))) m
      pure (m.setPte (t + 8 * i) 0)) := by
  simp only [freewalkEntry]
  rw [if_pos ⟨hv, hrwx⟩]

theorem kfree_freeable {m : Machine} {q : Nat} (h : m.Freeable q) :
    kfree m q = .ok { m.memset q 1 PGSIZE with free := q :: m.free } :=
  kfree_ok h.1 h.2.1 h.2.2

/-- `freewalk` on a clean table whose pages are distinct: it frees exactly those pages, last
freed first on the list, and changes no byte outside them. -/
theorem freewalk_clean : ∀ (depth t : Nat) (m : Machine), m.Clean depth t →
    (m.walkPages depth t).Nodup →
    ∃ m', freewalk (depth + 1) t m = .ok m' ∧ m'.kend = m.kend ∧
      m'.free = (m.walkPages depth t).reverse ++ m.free ∧
      ∀ i, ¬ InPages (m.walkPages depth t) i → m'.mem i = m.mem i := by
  intro depth
  induction depth with
  | zero =>
    intro t m hc _
    -- a bottom table: the loop reads invalid entries only
    have hloop : (List.range 512).foldlM (freewalkEntry (freewalk 0) t) m = .ok m := by
      obtain ⟨b, hb, rfl⟩ := foldlM_ok_of_inv (fun _ b => b = m)
        (f := freewalkEntry (freewalk 0) t) (l := List.range 512)
        (fun pre x post b hl hb => by
          have hx : x < 512 := List.mem_range.mp (hl ▸ List.mem_append_right _ List.mem_cons_self)
          subst hb
          exact ⟨b, freewalkEntry_invalid (hc.2 x hx), rfl⟩) rfl
      exact hb
    refine ⟨{ m.memset t 1 PGSIZE with free := t :: m.free },
      by rw [freewalk, hloop, ok_bind, kfree_freeable hc.1], rfl, by rw [Machine.walkPages]; rfl,
      fun i hi => ?_⟩
    apply Machine.mem_memset_of_apart
    have hi' : ¬ (t ≤ i ∧ i < t + PGSIZE) := fun h => hi ⟨t, List.mem_singleton_self t, h⟩
    omega
  | succ depth ih =>
    intro t m hc hnd
    rw [Machine.walkPages_succ] at hnd ⊢
    have hal : ∀ q ∈ (List.range 512).flatMap (m.below depth t) ++ [t], q % PGSIZE = 0 :=
      fun q hq => (hc.freeable_of_mem q (by rwa [Machine.walkPages_succ])).1
    obtain ⟨hnd_all, -, ht_not⟩ := List.nodup_append.mp hnd
    -- the loop: the prefix of entries done is freed below and cleared, and nothing else moved
    let P : List Nat → Machine → Prop := fun pre b =>
      b.kend = m.kend ∧ b.free = (pre.flatMap (m.below depth t)).reverse ++ m.free ∧
        ∀ i, ¬ InPages (pre.flatMap (m.below depth t)) i →
          (∀ j ∈ pre, ¬ (t + 8 * j ≤ i ∧ i < t + 8 * j + 8)) → b.mem i = m.mem i
    have hstep : ∀ pre x post b, List.range 512 = pre ++ x :: post → P pre b →
        ∃ b', freewalkEntry (freewalk (depth + 1)) t b x = .ok b' ∧ P (pre ++ [x]) b' := by
      intro pre x post b hl ⟨hk, hf, hmem⟩
      have hx : x < 512 := List.mem_range.mp (hl ▸ List.mem_append_right _ List.mem_cons_self)
      have hxpre : x ∉ pre := not_mem_pre_of_nodup List.nodup_range hl
      have hsplit : (List.range 512).flatMap (m.below depth t) =
          pre.flatMap (m.below depth t) ++ (m.below depth t x ++ post.flatMap (m.below depth t)) := by
        rw [hl, List.flatMap_append, List.flatMap_cons]
      -- the pages done before, those below `x`, and `t` are pairwise distinct
      have hnd' := hsplit ▸ hnd_all
      obtain ⟨-, hnd_x, hdis⟩ := List.nodup_append.mp hnd'
      replace hnd_x := (List.nodup_append.mp hnd_x).1
      have hdis_x : ∀ a ∈ pre.flatMap (m.below depth t), ∀ b ∈ m.below depth t x, a ≠ b :=
        fun a ha b hb => hdis a ha b (List.mem_append_left _ hb)
      have hmem_all : ∀ q, q ∈ pre.flatMap (m.below depth t) ∨ q ∈ m.below depth t x →
          q ∈ (List.range 512).flatMap (m.below depth t) := by
        rintro q (hq | hq) <;> rw [hsplit] <;> simp [hq]
      have hne_t : ∀ q, q ∈ pre.flatMap (m.below depth t) ∨ q ∈ m.below depth t x → q ≠ t :=
        fun q hq hqt => ht_not q (hmem_all q hq) t (List.mem_singleton_self t) hqt
      have hal_t : t % PGSIZE = 0 := hal t (List.mem_append_right _ (List.mem_singleton_self t))
      have hal_q : ∀ q, q ∈ pre.flatMap (m.below depth t) ∨ q ∈ m.below depth t x →
          q % PGSIZE = 0 := fun q hq => hal q (List.mem_append_left _ (hmem_all q hq))
      -- a byte of `t`'s page lies in no page done before or below `x`
      have hoff_t : ∀ i, t ≤ i → i < t + PGSIZE → ∀ q,
          q ∈ pre.flatMap (m.below depth t) ∨ q ∈ m.below depth t x → ¬ (q ≤ i ∧ i < q + PGSIZE) :=
        fun i h1 h2 q hq => pages_apart hal_t (hal_q q hq) (hne_t q hq).symm ⟨h1, h2⟩
      -- entry `x` reads as in `m`
      have hentry : b.pte (t + 8 * x) = m.pte (t + 8 * x) := by
        refine Machine.pte_congr fun i h1 h2 => hmem i ?_ ?_
        · rintro ⟨q, hq, hiq⟩
          have := entry_mem_own hx h1 h2
          exact hoff_t i this.1 this.2 q (.inl hq) hiq
        · intro j hj hij
          have hjx : j ≠ x := fun h => hxpre (h ▸ hj)
          omega
      by_cases hv : m.pte (t + 8 * x) &&& PTE_V ≠ 0
      · obtain ⟨hrwx, hcc⟩ := hc.2 x hx hv
        have hbelow : m.below depth t x = m.walkPages depth (PTE2PA (m.pte (t + 8 * x))) := by
          rw [Machine.below, if_pos hv]
        -- `b` agrees with `m` on the pages below `x`
        have hagree : ∀ i, InPages (m.walkPages depth (PTE2PA (m.pte (t + 8 * x)))) i →
            b.mem i = m.mem i := by
          rintro i ⟨q, hq, hiq⟩
          rw [← hbelow] at hq
          apply hmem i
          · exact InPages.not_of_disjoint (A := m.below depth t x)
              (fun q' hq' => by
                rcases List.mem_append.mp hq' with hq' | hq'
                · exact hal_q q' (.inr hq')
                · exact hal_q q' (.inl hq'))
              (fun a ha c hc' => (hdis_x c hc' a ha).symm) ⟨q, hq, hiq⟩
          · intro j _ hij
            have hj := entry_mem_own (List.mem_range.mp (hl ▸ List.mem_append_left _ ‹j ∈ pre›)) hij.1 hij.2
            exact hoff_t i hj.1 hj.2 q (.inr hq) hiq
        obtain ⟨hwp, hcb⟩ := Machine.walkPages_congr hk depth _ hagree
        have hndc : (m.walkPages depth (PTE2PA (m.pte (t + 8 * x)))).Nodup := hbelow ▸ hnd_x
        obtain ⟨b₁, hrun, hk₁, hf₁, hmem₁⟩ := ih _ b (hcb hcc) (hwp ▸ hndc)
        have hvb : b.pte (t + 8 * x) &&& PTE_V ≠ 0 := by rw [hentry]; exact hv
        have hrwxb : b.pte (t + 8 * x) &&& (PTE_R ||| PTE_W ||| PTE_X) = 0 := by
          rw [hentry]; exact hrwx
        refine ⟨b₁.setPte (t + 8 * x) 0, ?_, ?_, ?_, ?_⟩
        · rw [freewalkEntry_table hvb hrwxb, hentry, hrun, ok_bind]
          rfl
        · rw [Machine.setPte_kend, hk₁, hk]
        · rw [Machine.setPte_free, hf₁, hwp, hf, List.flatMap_append, List.flatMap_singleton,
            hbelow, List.reverse_append, List.append_assoc]
        · intro i hi hent
          rw [List.flatMap_append, List.flatMap_singleton] at hi
          have hi₁ : ¬ InPages (pre.flatMap (m.below depth t)) i :=
            fun ⟨q, hq, h⟩ => hi ⟨q, List.mem_append_left _ hq, h⟩
          have hi₂ : ¬ InPages (b.walkPages depth (PTE2PA (m.pte (t + 8 * x)))) i := by
            rw [hwp, ← hbelow]
            exact fun ⟨q, hq, h⟩ => hi ⟨q, List.mem_append_right _ hq, h⟩
          have hx' := hent x (List.mem_append_right _ (List.mem_singleton_self x))
          rw [Machine.mem_setPte_of_apart (by omega), hmem₁ i hi₂]
          exact hmem i hi₁ fun j hj => hent j (List.mem_append_left _ hj)
      · -- an invalid entry: nothing to do
        have hinv : b.pte (t + 8 * x) &&& PTE_V = 0 := by
          rw [hentry]
          exact not_not.mp hv
        have hbelow : m.below depth t x = [] := by rw [Machine.below, if_neg hv]
        refine ⟨b, freewalkEntry_invalid hinv, hk, ?_, fun i hi hent => ?_⟩
        · rw [List.flatMap_append, List.flatMap_singleton, hbelow, List.append_nil, hf]
        · rw [List.flatMap_append, List.flatMap_singleton, hbelow, List.append_nil] at hi
          exact hmem i hi fun j hj => hent j (List.mem_append_left _ hj)
    obtain ⟨b, hloop, hk, hf, hmem⟩ := foldlM_ok_of_inv P hstep (b := m)
      ⟨rfl, by simp, fun _ _ _ => rfl⟩
    have hfr : b.Freeable t := by
      obtain ⟨h1, h2, h3⟩ := hc.1
      exact ⟨h1, hk ▸ h2, h3⟩
    refine ⟨{ b.memset t 1 PGSIZE with free := t :: b.free },
      by rw [freewalk, hloop, ok_bind, kfree_freeable hfr], hk, ?_, fun i hi => ?_⟩
    · rw [List.reverse_append, List.reverse_singleton, List.singleton_append, hf,
        List.cons_append]
    · -- off every freed page: off `t`'s page and its entries, and off the pages below
      have hit : ¬ (t ≤ i ∧ i < t + PGSIZE) :=
        fun h => hi ⟨t, List.mem_append_right _ (List.mem_singleton_self t), h⟩
      show (b.memset t 1 PGSIZE).mem i = m.mem i
      rw [Machine.mem_memset_of_apart (by omega)]
      refine hmem i (fun ⟨q, hq, h⟩ => hi ⟨q, List.mem_append_left _ hq, h⟩) fun j hj hij => ?_
      exact hit (entry_mem_own (List.mem_range.mp hj) hij.1 hij.2)

end Freewalk

/-! ## The shape of a process's page table -/

/-- What a process's page table keeps besides `Wf`, and what `freewalk` needs of it: an entry
that leads to a lower table carries none of `R`, `W`, `X` (`walk` stores `PA2PTE(p) | PTE_V`),
the root has no table for the addresses from `MAXVA` to `2 * MAXVA` (`walk` stops at `MAXVA`),
and every table is a page of RAM above the kernel (each one came from `kalloc`). -/
structure Shape (m : Machine) (pt : Nat) : Prop where
  inner : ∀ va l t, (l = 1 ∨ l = 2) → m.table pt va l = some t →
    m.pte (t + 8 * PX l va) &&& PTE_V ≠ 0 →
      m.pte (t + 8 * PX l va) &&& (PTE_R ||| PTE_W ||| PTE_X) = 0
  upper : ∀ va, MAXVA ≤ va → va < 2 * MAXVA → m.table pt va 1 = none
  placed : ∀ va l t, l ≤ 2 → m.table pt va l = some t → m.kend ≤ t ∧ t < PHYSTOP

/-- The address whose indices at levels 2, 1 and 0 are `i`, `j` and `k`. -/
def vaOf (i j k : Nat) : Nat := i * 2 ^ 30 + j * 2 ^ 21 + k * 2 ^ 12

theorem PX_vaOf {i j k : Nat} (hi : i < 512) (hj : j < 512) (hk : k < 512) :
    PX 2 (vaOf i j k) = i ∧ PX 1 (vaOf i j k) = j ∧ PX 0 (vaOf i j k) = k := by
  simp only [PX_eq, vaOf]
  norm_num
  omega

theorem vaOf_lt_MAXVA {i j k : Nat} (hi : i < 256) (hj : j < 512) (hk : k < 512) :
    vaOf i j k < MAXVA := by
  unfold vaOf MAXVA
  norm_num
  omega

section Shape

variable {m m' : Machine} {pt : Nat}

/-- `next` reads the entry of the index of `va` at its level. -/
theorem Machine.next_of_PX {va l t i : Nat} (h : PX l va = i) :
    m.next va l t =
      if m.pte (t + 8 * i) &&& PTE_V ≠ 0 then some (PTE2PA (m.pte (t + 8 * i))) else none := by
  rw [Machine.next, h]

/-- The level-1 table of `va` is the one the root's entry `PX 2 va` leads to. -/
theorem Machine.table_one_of_PX {va i : Nat} (h : PX 2 va = i) :
    m.table pt va 1 =
      if m.pte (pt + 8 * i) &&& PTE_V ≠ 0 then some (PTE2PA (m.pte (pt + 8 * i))) else none := by
  rw [Machine.table_one, Machine.next_of_PX h]

/-- The level-0 table of `va` is the one its level-1 table's entry `PX 1 va` leads to. -/
theorem Machine.table_zero_of_PX {va j c : Nat} (hc : m.table pt va 1 = some c) (h : PX 1 va = j) :
    m.table pt va 0 =
      if m.pte (c + 8 * j) &&& PTE_V ≠ 0 then some (PTE2PA (m.pte (c + 8 * j))) else none := by
  rw [Machine.table_zero, hc, Option.bind_some, Machine.next_of_PX h]

/-- With every leaf gone, a tree of this shape is clean from its root. -/
theorem Tree.clean (hT : Tree m pt) (hS : Shape m pt)
    (hnone : ∀ va, va < MAXVA → m.leaf pt va = none) : m.Clean 2 pt := by
  have hfree : ∀ va l t, l ≤ 2 → m.table pt va l = some t → m.Freeable t := fun va l t hl ht =>
    ⟨hT.aligned va l t ht, hS.placed va l t hl ht⟩
  refine ⟨hfree 0 2 pt le_rfl (m.table_two pt 0), fun i hi hv => ?_⟩
  -- the root's entry `i` is the level-2 entry of the addresses with index `i` there
  obtain ⟨h2, -, -⟩ := PX_vaOf hi (j := 0) (k := 0) (by decide) (by decide)
  have hc : m.table pt (vaOf i 0 0) 1 = some (PTE2PA (m.pte (pt + 8 * i))) := by
    rw [Machine.table_one_of_PX h2, if_pos hv]
  have hrwx := hS.inner (vaOf i 0 0) 2 pt (.inr rfl) (m.table_two pt _) (by rw [h2]; exact hv)
  rw [h2] at hrwx
  refine ⟨hrwx, hfree _ 1 _ (by omega) hc, fun j hj hv' => ?_⟩
  obtain ⟨h2', h1', -⟩ := PX_vaOf hi hj (k := 0) (by decide)
  have hc' : m.table pt (vaOf i j 0) 1 = some (PTE2PA (m.pte (pt + 8 * i))) := by
    rw [Machine.table_one_of_PX h2', if_pos hv]
  have hg : m.table pt (vaOf i j 0) 0 =
      some (PTE2PA (m.pte (PTE2PA (m.pte (pt + 8 * i)) + 8 * j))) := by
    rw [Machine.table_zero_of_PX hc' h1', if_pos hv']
  have hrwx' := hS.inner (vaOf i j 0) 1 _ (.inl rfl) hc' (by rw [h1']; exact hv')
  rw [h1'] at hrwx'
  refine ⟨hrwx', hfree _ 0 _ (by omega) hg, fun k hk => ?_⟩
  -- a bottom entry is the leaf entry of an address below `MAXVA`, which has no translation
  by_cases hlow : i < 256
  · obtain ⟨h2'', h1'', h0''⟩ := PX_vaOf hi hj hk
    have hc'' : m.table pt (vaOf i j k) 1 = some (PTE2PA (m.pte (pt + 8 * i))) := by
      rw [Machine.table_one_of_PX h2'', if_pos hv]
    have hg'' : m.table pt (vaOf i j k) 0 =
        some (PTE2PA (m.pte (PTE2PA (m.pte (pt + 8 * i)) + 8 * j))) := by
      rw [Machine.table_zero_of_PX hc'' h1'', if_pos hv']
    have hs : m.slot pt (vaOf i j k) =
        some (PTE2PA (m.pte (PTE2PA (m.pte (pt + 8 * i)) + 8 * j)) + 8 * k) := by
      rw [Machine.slot, hg'', Option.map_some, h0'']
    by_contra hval
    have hl := Machine.leaf_eq_some.mpr ⟨_, hs, hval, rfl⟩
    rw [hnone _ (vaOf_lt_MAXVA hlow hj hk)] at hl
    cases hl
  · -- above `MAXVA` the root has no table
    have hup := hS.upper (vaOf i 0 0) (by unfold vaOf MAXVA; omega) (by unfold vaOf MAXVA; omega)
    rw [hc] at hup
    cases hup

/-- The page below entry `j` of the level-1 table of `va` is the level-0 table of the address with
index `j` there. -/
theorem Machine.mem_below_one {va c j q : Nat} (hc : m.table pt va 1 = some c) (hj : j < 512)
    (hq : q ∈ m.below 0 c j) : ∃ va', PX 2 va' = PX 2 va ∧ PX 1 va' = j ∧ m.table pt va' 0 = some q := by
  unfold Machine.below at hq
  split_ifs at hq with hv
  · rw [Machine.walkPages, List.mem_singleton] at hq
    subst hq
    obtain ⟨h2, h1, -⟩ := PX_vaOf (PX_lt 2 va) hj (k := 0) (by decide)
    have hc' : m.table pt (vaOf (PX 2 va) j 0) 1 = some c := by
      rw [Machine.table_one_of_PX h2, ← Machine.table_one_of_PX rfl, hc]
    exact ⟨_, h2, h1, by rw [Machine.table_zero_of_PX hc' h1, if_pos hv]⟩
  · cases hq

/-- Every page below entry `i` of the root is a table at level 1 or 0 of an address whose index at
level 2 is `i`. -/
theorem Machine.mem_below_root {i q : Nat} (hi : i < 512) (hq : q ∈ m.below 1 pt i) :
    ∃ va l, l ≤ 1 ∧ PX 2 va = i ∧ m.table pt va l = some q := by
  unfold Machine.below at hq
  split_ifs at hq with hv
  · obtain ⟨h2, -, -⟩ := PX_vaOf hi (j := 0) (k := 0) (by decide) (by decide)
    have hc : m.table pt (vaOf i 0 0) 1 = some (PTE2PA (m.pte (pt + 8 * i))) := by
      rw [Machine.table_one_of_PX h2, if_pos hv]
    rw [Machine.walkPages_succ, List.mem_append, List.mem_flatMap] at hq
    rcases hq with ⟨j, hj, hq⟩ | hq
    · -- a level-0 table, through entry `j` of the level-1 table
      obtain ⟨va', h2', -, h0⟩ := m.mem_below_one hc (List.mem_range.mp hj) hq
      exact ⟨va', 0, by omega, h2'.trans h2, h0⟩
    · rw [List.mem_singleton] at hq
      subst hq
      exact ⟨vaOf i 0 0, 1, le_rfl, h2, hc⟩
  · cases hq

/-- The pages `freewalk` frees from the root are the tables of the tree. -/
theorem Machine.mem_walkPages {q : Nat} :
    q ∈ m.walkPages 2 pt ↔ ∃ va l, l ≤ 2 ∧ m.table pt va l = some q := by
  constructor
  · intro hq
    rw [Machine.walkPages_succ, List.mem_append, List.mem_flatMap] at hq
    rcases hq with ⟨i, hi, hq⟩ | hq
    · obtain ⟨va, l, hl, -, h⟩ := m.mem_below_root (List.mem_range.mp hi) hq
      exact ⟨va, l, by omega, h⟩
    · exact ⟨0, 2, le_rfl, by rw [List.mem_singleton.mp hq]; rfl⟩
  · rintro ⟨va, l, hl, h⟩
    rw [Machine.walkPages_succ, List.mem_append, List.mem_flatMap]
    have hi := PX_lt 2 va
    obtain rfl | rfl | rfl : l = 0 ∨ l = 1 ∨ l = 2 := by omega
    · -- the table a level-1 table's entry leads to
      rw [Machine.table_zero, Machine.table_one_of_PX rfl] at h
      have hv : m.pte (pt + 8 * PX 2 va) &&& PTE_V ≠ 0 := by
        by_contra hv
        rw [if_neg (fun h => h hv), Option.bind_none] at h
        cases h
      rw [if_pos hv, Option.bind_some, Machine.next_of_PX rfl] at h
      have hv' : m.pte (PTE2PA (m.pte (pt + 8 * PX 2 va)) + 8 * PX 1 va) &&& PTE_V ≠ 0 := by
        by_contra hv'
        rw [if_neg (fun h => h hv')] at h
        cases h
      rw [if_pos hv'] at h
      refine .inl ⟨PX 2 va, List.mem_range.mpr hi, ?_⟩
      rw [Machine.below, if_pos hv, Machine.walkPages_succ]
      refine List.mem_append_left _ (List.mem_flatMap.mpr ⟨PX 1 va, List.mem_range.mpr (PX_lt 1 va), ?_⟩)
      rw [Machine.below, if_pos hv', Option.some.inj h]
      exact Machine.mem_walkPages_self 0 q
    · -- the table the root's entry leads to
      rw [Machine.table_one_of_PX rfl] at h
      split_ifs at h with hv
      refine .inl ⟨PX 2 va, List.mem_range.mpr hi, ?_⟩
      rw [Machine.below, if_pos hv, Option.some.inj h]
      exact Machine.mem_walkPages_self 1 q
    · exact .inr (List.mem_singleton.mpr (Option.some.inj h).symm)

/-- On a tree, `freewalk` from the root meets each table once: a table is reached at one level,
along one prefix of the address. -/
theorem Tree.walkPages_nodup (hT : Tree m pt) : (m.walkPages 2 pt).Nodup := by
  rw [Machine.walkPages_succ, List.nodup_append]
  refine ⟨List.nodup_flatMap.mpr ⟨fun i hi => ?_, ?_⟩, List.nodup_singleton pt, ?_⟩
  · -- below one entry of the root: the level-0 tables, then the level-1 table
    have hi' := List.mem_range.mp hi
    unfold Machine.below
    split_ifs with hv
    · obtain ⟨h2, -, -⟩ := PX_vaOf hi' (j := 0) (k := 0) (by decide) (by decide)
      have hc : m.table pt (vaOf i 0 0) 1 = some (PTE2PA (m.pte (pt + 8 * i))) := by
        rw [Machine.table_one_of_PX h2, if_pos hv]
      rw [Machine.walkPages_succ, List.nodup_append]
      refine ⟨List.nodup_flatMap.mpr ⟨fun j _ => ?_, ?_⟩, List.nodup_singleton _, ?_⟩
      · -- at most one level-0 table below an entry
        unfold Machine.below
        split_ifs
        · exact List.nodup_singleton _
        · exact List.nodup_nil
      · -- level-0 tables below different entries differ by their index at level 1
        refine List.Pairwise.imp_of_mem (fun {j j'} hj hj' hne => ?_) List.nodup_range
        intro g hg hg'
        obtain ⟨va₁, -, h1, ht₁⟩ := m.mem_below_one hc (List.mem_range.mp hj) hg
        obtain ⟨va₂, -, h1', ht₂⟩ := m.mem_below_one hc (List.mem_range.mp hj') hg'
        have hpre := (hT.inj va₁ va₂ 0 0 g (by omega) (by omega) ht₁ ht₂).2 1 (by omega) (by omega)
        exact hne (h1.symm.trans (hpre.trans h1'))
      · -- the level-1 table is none of them
        intro g hg c hc' heq
        rw [List.mem_singleton] at hc'
        subst hc'
        obtain ⟨j, hj, hg⟩ := List.mem_flatMap.mp hg
        obtain ⟨va₁, -, -, ht₁⟩ := m.mem_below_one hc (List.mem_range.mp hj) hg
        exact hT.ne_of_level (by omega) (by omega) (by omega) ht₁ hc heq
    · exact List.nodup_nil
  · -- below different entries of the root: different indices at level 2
    refine List.Pairwise.imp_of_mem (fun {i i'} hi hi' hne => ?_) List.nodup_range
    intro q hq hq'
    obtain ⟨va₁, l₁, hl₁, h2, ht₁⟩ := m.mem_below_root (List.mem_range.mp hi) hq
    obtain ⟨va₂, l₂, hl₂, h2', ht₂⟩ := m.mem_below_root (List.mem_range.mp hi') hq'
    obtain ⟨rfl, hpre⟩ := hT.inj va₁ va₂ l₁ l₂ q (by omega) (by omega) ht₁ ht₂
    exact hne (h2.symm.trans ((hpre 2 (by omega) le_rfl).trans h2'))
  · -- the root is none of them
    intro q hq r hr heq
    rw [List.mem_singleton] at hr
    rw [hr] at heq
    obtain ⟨i, hi, hq⟩ := List.mem_flatMap.mp hq
    obtain ⟨va₁, l₁, hl₁, -, ht₁⟩ := m.mem_below_root (List.mem_range.mp hi) hq
    exact hT.ne_of_level (by omega) le_rfl (by omega) ht₁ (m.table_two pt 0) heq

/-- A root with every entry invalid, in RAM above the kernel, has the shape: the page table
`uvmcreate` makes. -/
theorem Shape.of_root_empty (hroot : ∀ va, m.next va 2 pt = none) (hge : m.kend ≤ pt)
    (hlt : pt < PHYSTOP) : Shape m pt where
  inner va l t hl h hv := by
    rcases hl with rfl | rfl
    · rw [Machine.table_one, hroot] at h
      cases h
    · obtain rfl : t = pt := (Option.some.inj h).symm
      have hn := hroot va
      rw [Machine.next, if_pos hv] at hn
      cases hn
  upper va _ _ := hroot va
  placed va l t _ h := by
    rcases l with _ | _ | k
    · rw [Machine.table_zero, Machine.table_one, hroot, Option.bind_none] at h
      cases h
    · rw [Machine.table_one, hroot] at h
      cases h
    · obtain rfl : t = pt := (Option.some.inj h).symm
      exact ⟨hge, hlt⟩

/-- A table of this shape keeps it when its tables read the same, `end` is kept, and no byte of a
table at level 1 or 2 changes. -/
theorem Shape.of_tables (hS : Shape m pt) (ht : ∀ va l, m'.table pt va l = m.table pt va l)
    (hk : m'.kend = m.kend) (hmem : ∀ i, m.InTable pt 1 i ∨ m.InTable pt 2 i → m'.mem i = m.mem i) :
    Shape m' pt where
  inner va l t hl h hv := by
    have h' : m.table pt va l = some t := (ht va l) ▸ h
    have he : m'.pte (t + 8 * PX l va) = m.pte (t + 8 * PX l va) := by
      have hpg := entry_mem_page t l va
      refine Machine.pte_congr fun i h1 h2 => hmem i ?_
      rcases hl with rfl | rfl
      · exact .inl ⟨va, t, h', by omega, by omega⟩
      · exact .inr ⟨va, t, h', by omega, by omega⟩
    rw [he] at hv ⊢
    exact hS.inner va l t hl h' hv
  upper va h1 h2 := (ht va 1).trans (hS.upper va h1 h2)
  placed va l t hl h := hk ▸ hS.placed va l t hl ((ht va l) ▸ h)

/-- A leaf entry lies in a level-0 table, off every table at level 1 or 2. -/
theorem Tree.slot_off_upper (hT : Tree m pt) {a e i : Nat} (hs : m.slot pt a = some e)
    (hi : m.InTable pt 1 i ∨ m.InTable pt 2 i) : i < e ∨ e + 8 ≤ i := by
  obtain ⟨t0, h0, rfl⟩ := Machine.slot_eq_some.mp hs
  have hpg := entry_mem_page t0 0 a
  have hal0 := hT.aligned a 0 t0 h0
  rcases hi with ⟨va, t, ht, h1, h2⟩ | ⟨va, t, ht, h1, h2⟩
  all_goals
    have hne := hT.ne_of_level (by omega) (by omega) (by omega) h0 ht
    have hal := hT.aligned va _ t ht
    unfold PGSIZE at hal hal0 hpg h2
    omega

/-- A byte of a table lies off every frame. -/
theorem Wf.table_off_frame (hW : Wf m pt) {va v i l : Nat} (hva : va < MAXVA)
    (hl : m.leaf pt va = some v) (hl2 : l ≤ 2) (hi : m.InTable pt l i) :
    i < PTE2PA v ∨ PTE2PA v + PGSIZE ≤ i := by
  by_contra hin
  exact (hW.frame_off hva hl (by omega)).1 l hl2 hi

/-- `uvmunmap(pagetable, a, 1, 0)` below `MAXVA`: the page loses its translation and its frame is
not freed; the memory keeps its shape, its free list, its tables and every other translation. -/
theorem uvmunmap_one (hW : Wf m pt) (hS : Shape m pt) {a : Nat} (ha : a < MAXVA)
    (hal : a % PGSIZE = 0) :
    ∃ m', uvmunmap m pt a 1 false = .ok m' ∧ Wf m' pt ∧ Shape m' pt ∧ m'.free = m.free ∧
      m'.kend = m.kend ∧ (∀ va l, m'.table pt va l = m.table pt va l) ∧ m'.leaf pt a = none ∧
      ∀ a', a' < MAXVA → a' / PGSIZE ≠ a / PGSIZE → m'.leaf pt a' = m.leaf pt a' := by
  rw [uvmunmap, if_neg (by omega)]
  cases hl : m.leaf pt a with
  | none =>
    -- nothing mapped: the loop skips the page
    refine ⟨m, by rw [uvmunmapLoop_skip ha hl]; rfl, hW, hS, rfl, rfl, fun _ _ => rfl, hl,
      fun _ _ _ => rfl⟩
  | some v =>
    obtain ⟨e, hs, hv, rfl⟩ := Machine.leaf_eq_some.mp hl
    have hrun : uvmunmapLoop pt false 1 a m = .ok (m.setPte e 0) := by
      rw [uvmunmapLoop, walk_false ha, ok_bind]
      dsimp only
      rw [hs]
      dsimp only
      rw [if_neg hv]
      rfl
    obtain ⟨hW', hnone, hother, ht⟩ := hW.unmap ha hs
    refine ⟨_, hrun, hW', hS.of_tables ht rfl fun i hi => ?_, rfl, rfl, ht, hnone, hother⟩
    exact Machine.mem_setPte_of_apart (hW.tree.slot_off_upper hs hi)

/-- A run of `uvmunmap` with `do_free` below `TRAMPOLINE` keeps the shape: it writes leaf entries
and frames only. -/
theorem uvmunmapLoop_shape (npages : Nat) : ∀ (a : Nat) (m m' : Machine), Wf m pt → Shape m pt →
    a % PGSIZE = 0 → a + npages * PGSIZE ≤ TRAMPOLINE →
    uvmunmapLoop pt true npages a m = .ok m' → Shape m' pt := by
  -- induction on the pages left, one page a turn
  induction npages with
  | zero =>
    intro a m m' _ hS _ _ h
    cases h
    exact hS
  | succ n ih =>
    intro a m m' hW hS hal hle h
    have ha : a < TRAMPOLINE := by
      rw [Nat.succ_mul] at hle
      unfold PGSIZE at hle
      omega
    have hal' : (a + PGSIZE) % PGSIZE = 0 := by
      unfold PGSIZE at hal ⊢
      omega
    have hle' : a + PGSIZE + n * PGSIZE ≤ TRAMPOLINE := by
      rw [Nat.succ_mul] at hle
      omega
    cases hl : m.leaf pt a with
    | none =>
      rw [uvmunmapLoop_skip (lt_MAXVA_of_lt_TRAMPOLINE ha) hl] at h
      exact ih _ m m' hW hS hal' hle' h
    | some v =>
      obtain ⟨e, hs, -, -⟩ := Machine.leaf_eq_some.mp hl
      rw [uvmunmapLoop_unmap (lt_MAXVA_of_lt_TRAMPOLINE ha) hs hl] at h
      obtain ⟨m₁, hk, hW₁, -, -, ht₁, -, -⟩ := hW.unmap_free ha hs hl
      rw [hk, ok_bind] at h
      have hm₁ : m₁ = { m.memset (PTE2PA v) 1 PGSIZE with free := PTE2PA v :: m.free } := by
        rw [kfree_ok (PTE2PA_aligned v) (hW.frame_ge a v ha hl) (hW.frame_lt a v ha hl)] at hk
        exact (Except.ok.inj hk).symm
      -- the frame and the leaf entry lie off the tables at levels 1 and 2
      have hS₁ : Shape (m₁.setPte e 0) pt := by
        have hk₁ : (m₁.setPte e 0).kend = m.kend := by
          rw [Machine.setPte_kend, hm₁]
          dsimp only
          exact Machine.memset_kend
        refine hS.of_tables ht₁ hk₁ fun i hi => ?_
        rw [Machine.mem_setPte_of_apart (hW.tree.slot_off_upper hs hi), hm₁]
        dsimp only
        have hoff : i < PTE2PA v ∨ PTE2PA v + PGSIZE ≤ i := by
          rcases hi with hi | hi
          · exact hW.table_off_frame (lt_MAXVA_of_lt_TRAMPOLINE ha) hl (by omega) hi
          · exact hW.table_off_frame (lt_MAXVA_of_lt_TRAMPOLINE ha) hl (by omega) hi
        exact Machine.mem_memset_of_apart hoff
      exact ih _ _ m' hW₁ hS₁ hal' hle' h

end Shape

/-! ## Tearing down -/

section Teardown

variable {m : Machine} {pt sz : Nat}

/-- `q` is a page of a level-0, 1 or 2 table of the tree at `pt`. -/
def Machine.IsTable (m : Machine) (pt q : Nat) : Prop := ∃ va l, l ≤ 2 ∧ m.table pt va l = some q

/-- `q` is the frame of a page below `TRAPFRAME`. -/
def Machine.IsFrame (m : Machine) (pt q : Nat) : Prop :=
  ∃ va v, va < TRAPFRAME ∧ m.leaf pt va = some v ∧ PTE2PA v = q

/-- The pages the memory of a process with the table at `pt` holds: free, a table, or a frame
below `TRAPFRAME` (the trapframe's page is `freeproc`'s to free, the trampoline the kernel's
text). -/
def Machine.Owns (m : Machine) (pt q : Nat) : Prop := q ∈ m.free ∨ m.IsTable pt q ∨ m.IsFrame pt q

/-- `uvmfree(pagetable, sz)` on a page table of this shape with nothing mapped from
`PGROUNDUP(sz)` on: it does not panic, and the free list after holds, each once, exactly the
pages free before, the tables, and the frames of the pages below `PGROUNDUP(sz)`. -/
theorem uvmfree_frees (hW : Wf m pt) (hS : Shape m pt) (hsz : sz ≤ TRAPFRAME)
    (hnone : ∀ va, PGROUNDUP sz ≤ va → va < MAXVA → m.leaf pt va = none) :
    ∃ m', uvmfree m pt sz = .ok m' ∧ m'.free.Nodup ∧ m'.kend = m.kend ∧
      ∀ q, q ∈ m'.free ↔ q ∈ m.free ∨ (∃ va l, l ≤ 2 ∧ m.table pt va l = some q) ∨
        ∃ va v, va < PGROUNDUP sz ∧ m.leaf pt va = some v ∧ PTE2PA v = q := by
  have hround : PGROUNDUP sz / PGSIZE * PGSIZE = PGROUNDUP sz :=
    Nat.div_mul_cancel (Nat.dvd_of_mod_eq_zero (PGROUNDUP_aligned sz))
  have hle : 0 + PGROUNDUP sz / PGSIZE * PGSIZE ≤ TRAMPOLINE := by
    rw [Nat.zero_add, hround]
    exact (PGROUNDUP_le_TRAPFRAME hsz).trans TRAPFRAME_le_TRAMPOLINE
  -- the user pages first: what is left has the same tables and no leaf
  obtain ⟨m₃, hunmap, hW₃, hS₃, hk₃, ht₃, hnone₃, hfree₃⟩ : ∃ m₃,
      uvmfree m pt sz = freewalk 3 pt m₃ ∧
      Wf m₃ pt ∧ Shape m₃ pt ∧ m₃.kend = m.kend ∧ (∀ va l, m₃.table pt va l = m.table pt va l) ∧
      (∀ va, va < MAXVA → m₃.leaf pt va = none) ∧
      ∀ q, q ∈ m₃.free ↔ q ∈ m.free ∨
        ∃ va v, va < PGROUNDUP sz ∧ m.leaf pt va = some v ∧ PTE2PA v = q := by
    by_cases hpos : sz > 0
    · obtain ⟨m₃, hrun, hW₃, hn₃, ho₃, hfr₃, hkeep₃, ht₃, -, -, hsub₃, hk₃⟩ :=
        uvmunmapLoop_free (PGROUNDUP sz / PGSIZE) 0 m hW (by decide) hle
      rw [Nat.zero_add, hround] at hn₃ ho₃ hfr₃ hsub₃
      refine ⟨m₃, by rw [uvmfree, if_pos hpos, uvmunmap, if_neg (by decide), hrun, ok_bind], hW₃,
        uvmunmapLoop_shape _ 0 m m₃ hW hS (by decide) hle hrun, hk₃, ht₃, fun va hva => ?_,
        fun q => ⟨fun hq => ?_, fun hq => ?_⟩⟩
      · by_cases hlt : va < PGROUNDUP sz
        · exact hn₃ va (Nat.zero_le va) hlt
        · rw [ho₃ va hva (.inr (by omega))]
          exact hnone va (by omega) hva
      · rcases hsub₃ q hq with hq | ⟨b, v, -, hb, hl, rfl⟩
        · exact .inl hq
        · exact .inr ⟨b, v, hb, hl, rfl⟩
      · rcases hq with hq | ⟨b, v, hb, hl, rfl⟩
        · exact hkeep₃ q hq
        · exact hfr₃ b v (Nat.zero_le b) hb hl
    · -- `sz = 0`: nothing is mapped at all
      have h0 : PGROUNDUP sz = 0 := by
        rw [show sz = 0 by omega]
        rfl
      refine ⟨m, by rw [uvmfree, if_neg hpos, pure_bind], hW, hS, rfl, fun _ _ => rfl,
        fun va hva => hnone va (by omega) hva, fun q => ?_⟩
      rw [h0]
      simp
  -- then the tables: a clean tree, each table once
  obtain ⟨m₄, hwalk, hk₄, hf₄, -⟩ := freewalk_clean 2 pt m₃ (hW₃.tree.clean hS₃ hnone₃)
    hW₃.tree.walkPages_nodup
  refine ⟨m₄, by rw [hunmap, hwalk], ?_, hk₄.trans hk₃, fun q => ?_⟩
  · rw [hf₄, List.nodup_append]
    refine ⟨List.nodup_reverse.mpr hW₃.tree.walkPages_nodup, hW₃.tree.free_nodup, ?_⟩
    intro a ha b hb hab
    rw [List.mem_reverse, Machine.mem_walkPages] at ha
    obtain ⟨va, l, -, ht⟩ := ha
    exact hW₃.tree.not_free va l a ht (hab ▸ hb)
  · rw [hf₄, List.mem_append, List.mem_reverse, Machine.mem_walkPages, hfree₃]
    simp only [ht₃]
    exact or_left_comm

/-- The two `uvmunmap`s that start `proc_freepagetable`, on a process image of this shape: the
trampoline and the trapframe lose their translations without being freed, and the shape, the free
list, `end`, the tables and every translation below `TRAPFRAME` stay. -/
theorem Image.unmap_top {p : Proc} (h : Image m p) (hS : Shape m p.pagetable) :
    ∃ m₁ m₂, uvmunmap m p.pagetable TRAMPOLINE 1 false = .ok m₁ ∧ Tree m₁ p.pagetable ∧
      (∀ va l, m₁.table p.pagetable va l = m.table p.pagetable va l) ∧
      uvmunmap m₁ p.pagetable TRAPFRAME 1 false = .ok m₂ ∧
      Wf m₂ p.pagetable ∧ Shape m₂ p.pagetable ∧ m₂.free = m.free ∧ m₂.kend = m.kend ∧
      (∀ va l, m₂.table p.pagetable va l = m.table p.pagetable va l) ∧
      (∀ va, va < TRAPFRAME → m₂.leaf p.pagetable va = m.leaf p.pagetable va) ∧
      ∀ va, PGROUNDUP p.sz ≤ va → va < MAXVA → m₂.leaf p.pagetable va = none := by
  have hTM := TRAMPOLINE_lt_MAXVA
  have hTF : TRAPFRAME < TRAMPOLINE := by unfold TRAPFRAME TRAMPOLINE MAXVA PGSIZE; omega
  obtain ⟨m₁, h₁, hW₁, hS₁, hf₁, hk₁, ht₁, hl₁, ho₁⟩ := uvmunmap_one h.wf hS hTM
    (by unfold TRAMPOLINE MAXVA PGSIZE; omega)
  obtain ⟨m₂, h₂, hW₂, hS₂, hf₂, hk₂, ht₂, hl₂, ho₂⟩ := uvmunmap_one hW₁ hS₁ (hTF.trans hTM)
    (by unfold TRAPFRAME TRAMPOLINE MAXVA PGSIZE; omega)
  -- below `TRAPFRAME` every translation is as it was
  have hlow : ∀ va, va < TRAPFRAME → m₂.leaf p.pagetable va = m.leaf p.pagetable va := by
    intro va hva
    have hmax : va < MAXVA := by omega
    rw [ho₂ va hmax (by unfold TRAPFRAME TRAMPOLINE MAXVA PGSIZE at *; omega),
      ho₁ va hmax (by unfold TRAPFRAME TRAMPOLINE MAXVA PGSIZE at *; omega)]
  refine ⟨m₁, m₂, h₁, hW₁.tree, ht₁, h₂, hW₂, hS₂, hf₂.trans hf₁, hk₂.trans hk₁,
    fun va l => (ht₂ va l).trans (ht₁ va l), hlow, fun va h1 h2 => ?_⟩
  -- from `PGROUNDUP(sz)` on nothing is mapped any more
  by_cases hva : va < TRAPFRAME
  · rw [hlow va hva]
    exact h.above va h1 hva
  · by_cases hvb : va < TRAMPOLINE
    · rw [Machine.leaf_of_page (show va / PGSIZE = TRAPFRAME / PGSIZE by
        unfold TRAPFRAME TRAMPOLINE MAXVA PGSIZE at *; omega)]
      exact hl₂
    · rw [ho₂ va h2 (by unfold TRAPFRAME TRAMPOLINE MAXVA PGSIZE at *; omega),
        Machine.leaf_of_page (show va / PGSIZE = TRAMPOLINE / PGSIZE by
          unfold TRAMPOLINE MAXVA PGSIZE at *; omega)]
      exact hl₁

/-- What `uvmfree(pagetable, sz)` frees once the trampoline and the trapframe are unmapped from a
process image of this shape: the pages free then, the tables then, and the frames of the process
below `TRAPFRAME`, each once. -/
theorem Image.uvmfree_owns {p : Proc} {m₂ : Machine} (h : Image m p) (hW₂ : Wf m₂ p.pagetable)
    (hS₂ : Shape m₂ p.pagetable)
    (hlow : ∀ va, va < TRAPFRAME → m₂.leaf p.pagetable va = m.leaf p.pagetable va)
    (hnone : ∀ va, PGROUNDUP p.sz ≤ va → va < MAXVA → m₂.leaf p.pagetable va = none) :
    ∃ m', uvmfree m₂ p.pagetable p.sz = .ok m' ∧ m'.free.Nodup ∧
      ∀ q, q ∈ m'.free ↔ q ∈ m₂.free ∨ m₂.IsTable p.pagetable q ∨ m.IsFrame p.pagetable q := by
  obtain ⟨m', hfree, hnd, -, hmem⟩ := uvmfree_frees hW₂ hS₂ h.sz_le hnone
  refine ⟨m', hfree, hnd, fun q => ?_⟩
  rw [hmem]
  -- a frame below `PGROUNDUP(sz)` is one below `TRAPFRAME`, and there is none between
  have hround := PGROUNDUP_le_TRAPFRAME h.sz_le
  constructor
  · rintro (hq | hq | ⟨va, v, hva, hl, rfl⟩)
    · exact .inl hq
    · exact .inr (.inl hq)
    · exact .inr (.inr ⟨va, v, by omega, (hlow va (by omega)) ▸ hl, rfl⟩)
  · rintro (hq | hq | ⟨va, v, hva, hl, rfl⟩)
    · exact .inl hq
    · exact .inr (.inl hq)
    · refine .inr (.inr ⟨va, v, ?_, (hlow va hva).symm ▸ hl, rfl⟩)
      by_contra hge
      rw [h.above va (by omega) hva] at hl
      cases hl

/-- `proc_freepagetable(p->pagetable, p->sz)` on a process image of this shape: it does not
panic, and afterwards the free list holds, each once, exactly the pages the process held: the
pages free before, the tables of the page table, and the frames of the user pages. The
trampoline, which maps the kernel's own text, and the trapframe, which `freeproc` frees apart, are
not freed. -/
theorem procFreepagetable_frees {p : Proc} (h : Image m p) (hS : Shape m p.pagetable) :
    ∃ m', procFreepagetable m p.pagetable p.sz = .ok m' ∧ m'.free.Nodup ∧
      ∀ q, q ∈ m'.free ↔ m.Owns p.pagetable q := by
  obtain ⟨m₁, m₂, h₁, -, -, h₂, hW₂, hS₂, hf₂, -, ht₂, hlow, hnone⟩ := h.unmap_top hS
  obtain ⟨m', hfree, hnd, hmem⟩ := h.uvmfree_owns hW₂ hS₂ hlow hnone
  refine ⟨m', by rw [procFreepagetable, h₁, ok_bind, h₂, ok_bind]; exact hfree, hnd, fun q => ?_⟩
  rw [hmem, hf₂]
  simp only [Machine.IsTable, ht₂]
  rfl

/-- The empty root of the fresh machine of `Xv6.Vm.Copy` has the shape. -/
theorem roomyMachine_shape : Shape roomyMachine 0x87000000 :=
  Shape.of_root_empty freshMachine_root_empty (by decide) (by decide)

end Teardown

end Xv6.Vm
