import Xv6.Vm.Life

/-!
# Xv6.Vm.Proc — the memory of a process from `allocproc` to `freeproc`

`allocproc` takes a page for the trapframe and builds the page table with `proc_pagetable`:
`uvmcreate` takes an empty root, and `mappages` maps the trampoline and the trapframe at the top
of user memory. When a step fails, what was taken goes back: `uvmfree` frees the tables and
`freeproc` the trapframe. `freeproc` frees the trapframe, then the page table and the user pages
with `proc_freepagetable`.

From a free list `kalloc` can hand out (`Kmem`), the process `allocproc` makes is a process image
of the shape `freewalk` needs that holds exactly the pages free before but its trapframe
(`Kmem.procPagetable_run`). Whatever `sbrk` calls and page faults it then makes, `freeproc` gives
every page back: the free list at the end is a permutation of the one before `allocproc`
(`allocproc_freeproc`).
-/

namespace Xv6.Vm

open Xv6.Lib

/-! ## The functions -/

/-- `uvmcreate()`: an empty page table, `0` when out of memory. -/
def uvmcreate (m : Machine) : Nat × Machine :=
  match kalloc m with
  | (none, m) => (0, m)
  | (some pagetable, m) => (pagetable, m.memset pagetable 0 PGSIZE)

/-- `proc_pagetable(p)` for a process whose trapframe is the page `trapframe`, with the code of
the trampoline at `trampoline`: the new page table, or `0`. -/
def procPagetable (m : Machine) (trampoline trapframe : Nat) : Except String (Nat × Machine) :=
  let (pagetable, m) := uvmcreate m
  if pagetable = 0 then pure (0, m)
  else do
    -- the trampoline code (for system call return), at the highest user virtual address
    let (r, m) ← mappages m pagetable TRAMPOLINE PGSIZE trampoline (PTE_R ||| PTE_X)
    if r < 0 then
      let m ← uvmfree m pagetable 0
      pure (0, m)
    else do
      -- the trapframe page, just below the trampoline page
      let (r, m) ← mappages m pagetable TRAPFRAME PGSIZE trapframe (PTE_R ||| PTE_W)
      if r < 0 then
        let m ← uvmunmap m pagetable TRAMPOLINE 1 false
        let m ← uvmfree m pagetable 0
        pure (0, m)
      else pure (pagetable, m)

/-- The memory `freeproc(p)` gives back for a process whose trapframe is the page `trapframe`:
`kfree(p->trapframe)` when there is one, then `proc_freepagetable(p->pagetable, p->sz)` when
there is a page table. -/
def freeproc (m : Machine) (trapframe : Nat) (p : Proc) : Except String Machine := do
  let m ← if trapframe ≠ 0 then kfree m trapframe else pure m
  if p.pagetable ≠ 0 then procFreepagetable m p.pagetable p.sz else pure m

/-- The memory `allocproc` takes for a process in a slot that `freeproc` left with no trapframe,
no page table and size `0`: the trapframe page and the process, or `none`, `allocproc`'s `0`,
after `freeproc` gave back what was taken. -/
def allocproc (m : Machine) (trampoline : Nat) : Except String (Option (Nat × Proc) × Machine) :=
  match kalloc m with
  -- allocate a trapframe page
  | (none, m) => do
    let m ← freeproc m 0 ⟨0, 0⟩
    pure (none, m)
  | (some trapframe, m) => do
    -- an empty user page table
    let (pagetable, m) ← procPagetable m trampoline trapframe
    if pagetable = 0 then
      let m ← freeproc m trapframe ⟨0, 0⟩
      pure (none, m)
    else pure (some (trapframe, ⟨pagetable, 0⟩), m)

/-- `freerange`'s loop from the page `p`: `kfree` of every page that ends by `pa_end`. -/
def freerangeLoop (pa_end p : Nat) (m : Machine) : Except String Machine :=
  if p + PGSIZE ≤ pa_end then do
    let m ← kfree m p
    freerangeLoop pa_end (p + PGSIZE) m
  else pure m
termination_by pa_end - p
decreasing_by
  unfold PGSIZE at *
  omega

/-- `freerange(pa_start, pa_end)`. -/
def freerange (m : Machine) (pa_start pa_end : Nat) : Except String Machine :=
  freerangeLoop pa_end (PGROUNDUP pa_start) m

/-- `kinit()`: the pages from `end`, the end of the kernel, to `PHYSTOP` go on the free list. -/
def kinit (m : Machine) : Except String Machine :=
  freerange m m.kend PHYSTOP

/-! ## A free list `kalloc` can hand out -/

/-- What `kinit` leaves of `kmem` and `kalloc` and `kfree` keep: the kernel ends above `0`, and
the free list holds distinct pages of RAM above the kernel. -/
structure Kmem (m : Machine) : Prop where
  kend_pos : 0 < m.kend
  aligned : ∀ q ∈ m.free, q % PGSIZE = 0
  ge : ∀ q ∈ m.free, m.kend ≤ q
  lt : ∀ q ∈ m.free, q < PHYSTOP
  nodup : m.free.Nodup

section Boot

variable {m : Machine} {pa_end : Nat}

/-- `freerange`'s loop from an aligned page above the kernel and above every free page: it does
not panic, and adds to the free list, each once, the pages from `p` that end by `pa_end`. -/
theorem freerangeLoop_run (hend : pa_end ≤ PHYSTOP) (d : Nat) :
    ∀ (p : Nat) (m : Machine), pa_end - p = d → p % PGSIZE = 0 → m.kend ≤ p →
      (∀ q ∈ m.free, q < p) → m.free.Nodup →
      ∃ m', freerangeLoop pa_end p m = .ok m' ∧ m'.kend = m.kend ∧ m'.free.Nodup ∧
        ∀ q, q ∈ m'.free ↔ q ∈ m.free ∨ (q % PGSIZE = 0 ∧ p ≤ q ∧ q + PGSIZE ≤ pa_end) := by
  -- induction on what is left below `pa_end`, one page a turn
  induction d using Nat.strong_induction_on with
  | _ d ih =>
  intro p m hd hal hge hlt hnd
  by_cases hle : p + PGSIZE ≤ pa_end
  · -- `kfree(p)`, then the pages above `p`
    have hal' : (p + PGSIZE) % PGSIZE = 0 := by
      unfold PGSIZE at hal ⊢
      omega
    have hlt' : ∀ q ∈ p :: m.free, q < p + PGSIZE := by
      intro q hq
      rcases List.mem_cons.mp hq with rfl | hq
      · unfold PGSIZE
        omega
      · have := hlt q hq
        omega
    have hnd' : (p :: m.free).Nodup := List.nodup_cons.mpr ⟨fun h => lt_irrefl p (hlt p h), hnd⟩
    obtain ⟨m', h, hk, hnd'', hmem⟩ := ih (pa_end - (p + PGSIZE)) (by unfold PGSIZE at hle ⊢; omega)
      (p + PGSIZE) { m.memset p 1 PGSIZE with free := p :: m.free } rfl hal'
      (by dsimp only; rw [Machine.memset_kend]; omega) hlt' hnd'
    refine ⟨m', ?_, hk, hnd'', fun q => ?_⟩
    · rw [freerangeLoop, if_pos hle, kfree_ok hal hge (by unfold PGSIZE at hle; omega), ok_bind]
      exact h
    · rw [hmem q]
      dsimp only
      rw [List.mem_cons]
      -- the pages from `p` are `p` and the pages from `p + PGSIZE`
      constructor
      · rintro ((rfl | hq) | ⟨hq, h1, h2⟩)
        · exact .inr ⟨hal, le_rfl, hle⟩
        · exact .inl hq
        · exact .inr ⟨hq, by omega, h2⟩
      · rintro (hq | ⟨hq, h1, h2⟩)
        · exact .inl (.inr hq)
        · by_cases hqp : q = p
          · exact .inl (.inl hqp)
          · unfold PGSIZE at hal hq h2 ⊢
            exact .inr ⟨hq, by omega, h2⟩
  · -- no page from `p` ends by `pa_end`
    refine ⟨m, by rw [freerangeLoop, if_neg hle]; rfl, rfl, hnd, fun q => ?_⟩
    constructor
    · exact .inl
    · rintro (hq | ⟨-, h1, h2⟩)
      · exact hq
      · omega

/-- `kinit()` on a machine whose free list is empty and whose kernel ends above `0`: it does not
panic, and leaves a free list `kalloc` can hand out that holds every page from the end of the
kernel to `PHYSTOP`. -/
theorem kinit_kmem (h0 : m.free = []) (hk : 0 < m.kend) :
    ∃ m', kinit m = .ok m' ∧ Kmem m' ∧ m'.kend = m.kend ∧
      ∀ q, q ∈ m'.free ↔ q % PGSIZE = 0 ∧ m.kend ≤ q ∧ q + PGSIZE ≤ PHYSTOP := by
  obtain ⟨m', h, hk', hnd, hmem⟩ := freerangeLoop_run le_rfl _ (PGROUNDUP m.kend) m rfl
    (PGROUNDUP_aligned m.kend) (le_PGROUNDUP m.kend) (by simp [h0]) (h0 ▸ List.nodup_nil)
  -- an aligned page lies above `PGROUNDUP(end)` exactly when it lies above `end`
  have hpages : ∀ q, q ∈ m'.free ↔ q % PGSIZE = 0 ∧ m.kend ≤ q ∧ q + PGSIZE ≤ PHYSTOP := by
    intro q
    rw [hmem q, h0]
    simp only [List.not_mem_nil, false_or]
    unfold PGROUNDUP
    unfold PGSIZE
    omega
  refine ⟨m', h, ⟨hk' ▸ hk, fun q hq => ((hpages q).mp hq).1, fun q hq => hk' ▸ ((hpages q).mp hq).2.1,
    fun q hq => ?_, hnd⟩, hk', hpages⟩
  have := ((hpages q).mp hq).2.2
  unfold PGSIZE at this
  omega

/-- A machine before `kinit`: zeroed memory, the kernel below `0x80040000` and no free page. -/
def bareMachine : Machine := { mem := fun _ => 0, free := [], kend := 0x80040000 }

theorem kinit_kmem_bareMachine :
    bareMachine.free = [] ∧ 0 < bareMachine.kend ∧
      ∃ m', kinit bareMachine = .ok m' ∧ Kmem m' ∧ m'.kend = bareMachine.kend ∧
        ∀ q, q ∈ m'.free ↔ q % PGSIZE = 0 ∧ bareMachine.kend ≤ q ∧ q + PGSIZE ≤ PHYSTOP :=
  ⟨rfl, by decide, kinit_kmem rfl (by decide)⟩

end Boot

section Create

variable {m m' : Machine} {pt : Nat}

/-- With an empty root, the root is the only table. -/
theorem Machine.isTable_of_root_empty (hroot : ∀ va, m.next va 2 pt = none) {q : Nat} :
    m.IsTable pt q ↔ q = pt := by
  constructor
  · rintro ⟨va, l, -, h⟩
    rcases l with _ | _ | l
    · rw [Machine.table_zero, Machine.table_one, hroot, Option.bind_none] at h
      cases h
    · rw [Machine.table_one, hroot] at h
      cases h
    · exact (Option.some.inj h).symm
  · rintro rfl
    exact ⟨0, 2, le_rfl, rfl⟩

/-- `uvmcreate()` on a free list `kalloc` can hand out: with a free page, the page is the new
root, zeroed; the memory is then well formed, of the shape `freewalk` needs, translates nothing,
and holds the pages free before. -/
theorem Kmem.uvmcreate (hK : Kmem m) :
    (m.free = [] ∧ uvmcreate m = (0, m)) ∨
      ∃ pt m₁, uvmcreate m = (pt, m₁) ∧ pt ≠ 0 ∧ Wf m₁ pt ∧ Shape m₁ pt ∧ m₁.kend = m.kend ∧
        (∀ va, m₁.leaf pt va = none) ∧ ∀ q, m₁.Owns pt q ↔ q ∈ m.free := by
  cases hfree : m.free with
  | nil => exact .inl ⟨rfl, by simp only [Vm.uvmcreate, kalloc, hfree]⟩
  | cons pt rest =>
    right
    have hpt : pt ∈ m.free := hfree ▸ List.mem_cons_self
    have hrest : ∀ q ∈ rest, q ∈ m.free := fun q hq => hfree ▸ List.mem_cons_of_mem pt hq
    have hnd := hfree ▸ hK.nodup
    -- the root is zeroed: every entry is invalid
    have hroot : ∀ va,
        (({ m with free := rest }.memset pt 5 PGSIZE).memset pt 0 PGSIZE).next va 2 pt = none := by
      intro va
      have hpg := entry_mem_page pt 2 va
      rw [Machine.next, Machine.pte_memset_zero hpg.1 hpg.2]
      simp
    have hnone := Machine.leaf_of_root_empty hroot
    refine ⟨pt, _, by simp only [Vm.uvmcreate, kalloc, hfree], ?_, ?_,
      Shape.of_root_empty hroot (hK.ge pt hpt) (hK.lt pt hpt), rfl, hnone, fun q => ?_⟩
    · have := hK.ge pt hpt
      have := hK.kend_pos
      omega
    · exact Wf.of_root_empty (hK.aligned pt hpt) (List.nodup_cons.mp hnd).1 hroot
        (fun q hq => hK.aligned q (hrest q hq)) (fun q hq => hK.lt q (hrest q hq))
        (List.nodup_cons.mp hnd).2 hK.kend_pos (fun q hq => hK.ge q (hrest q hq))
    · -- the root is the only table, and nothing is mapped
      have hframe :
          ¬ (({ m with free := rest }.memset pt 5 PGSIZE).memset pt 0 PGSIZE).IsFrame pt q := by
        rintro ⟨va, v, -, hl, -⟩
        rw [hnone va] at hl
        cases hl
      unfold Machine.Owns
      rw [Machine.isTable_of_root_empty hroot, List.mem_cons]
      simp only [hframe, or_false, Machine.memset_free]
      exact or_comm

/-- A tree of this shape whose only translation is the trampoline's page, to a page below the
kernel, is well formed: `Wf` asks of a frame at or above `TRAMPOLINE` only that it is no table,
no free page and no other page's frame. -/
theorem Wf.of_trampoline (hT : Tree m pt) (hS : Shape m pt) (hk : 0 < m.kend)
    (hfk : ∀ q ∈ m.free, m.kend ≤ q)
    (hleaf : ∀ va, va < MAXVA → va / PGSIZE ≠ TRAMPOLINE / PGSIZE → m.leaf pt va = none)
    (htr : ∀ v, m.leaf pt TRAMPOLINE = some v → PTE2PA v < m.kend) : Wf m pt := by
  -- every translation is the trampoline's
  have hcase : ∀ va v, va < MAXVA → m.leaf pt va = some v →
      va / PGSIZE = TRAMPOLINE / PGSIZE ∧ PTE2PA v < m.kend := by
    intro va v hva h
    by_cases hp : va / PGSIZE = TRAMPOLINE / PGSIZE
    · rw [Machine.leaf_of_page hp] at h
      exact ⟨hp, htr v h⟩
    · rw [hleaf va hva hp] at h
      cases h
  -- and lies on no page below `TRAMPOLINE`
  have hbelow : ∀ va v, va < TRAMPOLINE → m.leaf pt va ≠ some v := by
    intro va v hva h
    have hp := (hcase va v (lt_MAXVA_of_lt_TRAMPOLINE hva) h).1
    unfold TRAMPOLINE MAXVA PGSIZE at hva hp
    omega
  refine ⟨hT, hk, hfk, fun va v hva h => absurd h (hbelow va v hva),
    fun va v hva h => absurd h (hbelow va v hva), ?_, ?_, ?_⟩
  · intro va v va' l t hva h hl ht he
    have h1 := (hcase va v hva h).2
    have h2 := (hS.placed va' l t hl ht).1
    omega
  · intro va v hva h hm
    have h1 := (hcase va v hva h).2
    have h2 := hfk _ hm
    omega
  · intro va va' v v' hva hva' h h' _
    exact (hcase va v hva h).1.trans (hcase va' v' hva' h').1.symm

end Create

/-! ## The pages `proc_pagetable` moves -/

section Moves

variable {m m' : Machine} {pt : Nat}

/-- A step that only grows the tree from the free list and keeps every translation below
`TRAPFRAME` holds the same pages. -/
theorem Conserves.of_grows (hg : Grows m m' pt) (htf : TablesFrom m m' pt)
    (hl : ∀ va, va < TRAPFRAME → m'.leaf pt va = m.leaf pt va) : Conserves m m' pt := by
  intro q
  constructor
  · rintro (hq | ⟨va, l, hl2, h⟩ | ⟨va, v, hva, h, rfl⟩)
    · exact .inl (hg.free.subset hq)
    · rcases hg.table va l q h with h | h
      · exact .inr (.inl ⟨va, l, hl2, h⟩)
      · exact .inl h
    · exact .inr (.inr ⟨va, v, hva, (hl va hva) ▸ h, rfl⟩)
  · rintro (hq | ⟨va, l, hl2, h⟩ | ⟨va, v, hva, h, rfl⟩)
    · exact (htf.taken q hq).imp_right .inl
    · exact .inr (.inl ⟨va, l, hl2, htf.kept va l q h⟩)
    · exact .inr (.inr ⟨va, v, hva, (hl va hva).trans h, rfl⟩)

/-- A step that keeps the free list, the tables and every translation below `TRAPFRAME` holds the
same pages. -/
theorem Conserves.of_same (hf : m'.free = m.free) (ht : ∀ va l, m'.table pt va l = m.table pt va l)
    (hl : ∀ va, va < TRAPFRAME → m'.leaf pt va = m.leaf pt va) : Conserves m m' pt := by
  intro q
  unfold Machine.Owns Machine.IsTable Machine.IsFrame
  rw [hf]
  simp only [ht]
  constructor
  · rintro (hq | hq | ⟨va, v, hva, h, rfl⟩)
    · exact .inl hq
    · exact .inr (.inl hq)
    · exact .inr (.inr ⟨va, v, hva, (hl va hva) ▸ h, rfl⟩)
  · rintro (hq | hq | ⟨va, v, hva, h, rfl⟩)
    · exact .inl hq
    · exact .inr (.inl hq)
    · exact .inr (.inr ⟨va, v, hva, (hl va hva).trans h, rfl⟩)

/-- `mappages` of one page with no translation at or above `TRAPFRAME`, on a tree of this shape:
it does not panic, keeps the shape and holds the same pages, the new frame being none of the
process's. It maps the page, or returns `-1` with every translation as before. -/
theorem mappages_top {va pa perm : Nat} (hT : Tree m pt) (hS : Shape m pt)
    (hge : ∀ q ∈ m.free, m.kend ≤ q) (hal : va % PGSIZE = 0) (htop : TRAPFRAME ≤ va)
    (hlt : va < MAXVA) (hpa : pa < 2 ^ 64) (hperm : perm < 2 ^ 10) (hnone : m.leaf pt va = none) :
    ∃ r m', mappages m pt va PGSIZE pa perm = .ok (r, m') ∧ Tree m' pt ∧ Shape m' pt ∧
      Grows m m' pt ∧ Conserves m m' pt ∧
      ((r = 0 ∧ m'.leaf pt va = some (leafPte pa perm) ∧
          ∀ a, a < MAXVA → a / PGSIZE ≠ va / PGSIZE → m'.leaf pt a = m.leaf pt a) ∨
        (r = -1 ∧ ∀ a, m'.leaf pt a = m.leaf pt a)) := by
  obtain ⟨r, m', hmap, hT', hg, -, hres⟩ := mappages_page hT hal hlt hpa hperm hnone
  -- a page below `TRAPFRAME` is not `va`'s
  have hlow : ∀ a, a < TRAPFRAME → m'.leaf pt a = m.leaf pt a := by
    intro a ha
    rcases hres with ⟨-, -, hother⟩ | ⟨-, -, hsame⟩
    · exact hother a (by have := TRAPFRAME_le_MAXVA; omega) (page_ne_of_not_mem hal (.inl (by omega)))
    · exact hsame a
  refine ⟨r, m', hmap, hT', hS.mappages_page hT hge hmap, hg,
    Conserves.of_grows hg (mappages_page_tablesFrom hT hal hlt hmap) hlow, ?_⟩
  rcases hres with ⟨rfl, hself, hother⟩ | ⟨rfl, -, hsame⟩
  · exact .inl ⟨rfl, hself, hother⟩
  · exact .inr ⟨rfl, hsame⟩

/-- `uvmfree(pagetable, 0)` of a tree of this shape that translates nothing frees its tables,
each once. -/
theorem uvmfree_empty (hW : Wf m pt) (hS : Shape m pt)
    (hnone : ∀ va, va < MAXVA → m.leaf pt va = none) :
    ∃ m', uvmfree m pt 0 = .ok m' ∧ m'.free.Nodup ∧ m'.kend = m.kend ∧
      ∀ q, q ∈ m'.free ↔ m.Owns pt q := by
  obtain ⟨m', h, hnd, hk, hmem⟩ :=
    uvmfree_frees hW hS (Nat.zero_le _) fun va _ hva => hnone va hva
  refine ⟨m', h, hnd, hk, fun q => ?_⟩
  -- nothing is mapped: no frame below `PGROUNDUP(0) = 0`, nor below `TRAPFRAME`
  have hf : ¬ m.IsFrame pt q := by
    rintro ⟨va, v, hva, hl, -⟩
    rw [hnone va (by have := TRAPFRAME_le_MAXVA; omega)] at hl
    cases hl
  have hf0 : ¬ ∃ va v, va < PGROUNDUP 0 ∧ m.leaf pt va = some v ∧ PTE2PA v = q := by
    rintro ⟨va, -, hva, -⟩
    have h0 : PGROUNDUP 0 = 0 := rfl
    omega
  rw [hmem]
  unfold Machine.Owns
  simp only [hf, hf0, or_false]
  rfl

end Moves

/-! ## `proc_pagetable` -/

section Pagetable

variable {m : Machine} {tf trampoline : Nat}

/-- `TRAMPOLINE` and `TRAPFRAME` are two pages at the top of user memory. -/
theorem top_pages : TRAMPOLINE % PGSIZE = 0 ∧ TRAPFRAME % PGSIZE = 0 ∧ TRAMPOLINE < MAXVA ∧
    TRAPFRAME < TRAMPOLINE ∧ TRAPFRAME / PGSIZE ≠ TRAMPOLINE / PGSIZE := by
  unfold TRAPFRAME TRAMPOLINE MAXVA PGSIZE
  omega

/-- `proc_pagetable(p)` with the trapframe page `tf` off a free list `kalloc` can hand out and
the trampoline's code on a page below the kernel: it does not panic, and either returns `0`
having given back every page it took, or returns a process image of size `0` of the shape
`freewalk` needs, with the trapframe mapped at `TRAPFRAME`, that holds exactly the pages free
before. -/
theorem Kmem.procPagetable_run (hK : Kmem m) (htf : tf ∉ m.free) (htfal : tf % PGSIZE = 0)
    (htfge : m.kend ≤ tf) (htflt : tf < PHYSTOP) (htral : trampoline % PGSIZE = 0)
    (htrlt : trampoline < m.kend) :
    ∃ pt m', procPagetable m trampoline tf = .ok (pt, m') ∧ m'.kend = m.kend ∧ m'.free.Nodup ∧
      ((pt = 0 ∧ ∀ q, q ∈ m'.free ↔ q ∈ m.free) ∨
        (pt ≠ 0 ∧ Image m' ⟨pt, 0⟩ ∧ Shape m' pt ∧
          m'.leaf pt TRAPFRAME = some (leafPte tf (PTE_R ||| PTE_W)) ∧
          ∀ q, m'.Owns pt q ↔ q ∈ m.free)) := by
  obtain ⟨hTal, hFal, hTM, hTF, hpages⟩ := top_pages
  have h64 : PHYSTOP < 2 ^ 64 := by unfold PHYSTOP KERNBASE; omega
  rcases hK.uvmcreate with ⟨-, hc⟩ | ⟨pt, m₁, hc, hpt0, hW₁, hS₁, hk₁, hl₁, ho₁⟩
  · -- no page for the root: `0`, and nothing taken
    refine ⟨0, m, ?_, rfl, hK.nodup, .inl ⟨rfl, fun _ => Iff.rfl⟩⟩
    rw [procPagetable, hc]
    rfl
  -- the trampoline, at `TRAMPOLINE`
  obtain ⟨r, m₂, hmap₂, hT₂, hS₂, hg₂, hc₂, hres₂⟩ := mappages_top hW₁.tree hS₁ hW₁.free_ge hTal
    (by omega) hTM (show trampoline < 2 ^ 64 by omega) (show PTE_R ||| PTE_X < 2 ^ 10 by decide)
    (hl₁ TRAMPOLINE)
  have hk₂ : m₂.kend = m.kend := hg₂.kend.trans hk₁
  have ho₂ : ∀ q, m₂.Owns pt q ↔ q ∈ m.free := fun q => (hc₂ q).trans (ho₁ q)
  have hge₂ := hg₂.free_ge hW₁.free_ge
  rcases hres₂ with ⟨rfl, hself₂, hother₂⟩ | ⟨rfl, hsame₂⟩
  · -- every translation of `m₂` is the trampoline's
    have hleaf₂ : ∀ va, va < MAXVA → va / PGSIZE ≠ TRAMPOLINE / PGSIZE → m₂.leaf pt va = none :=
      fun va hva hp => (hother₂ va hva hp).trans (hl₁ va)
    have htrpa : PTE2PA (leafPte trampoline (PTE_R ||| PTE_X)) = trampoline :=
      PTE2PA_leafPte htral (by omega) (by decide)
    have hW₂ : Wf m₂ pt := by
      refine Wf.of_trampoline hT₂ hS₂ (hk₂ ▸ hK.kend_pos) hge₂ hleaf₂ fun v h => ?_
      rw [hself₂] at h
      cases h
      rw [htrpa, hk₂]
      exact htrlt
    -- the trapframe, at `TRAPFRAME`
    obtain ⟨r', m₃, hmap₃, hT₃, hS₃, hg₃, hc₃, hres₃⟩ := mappages_top hT₂ hS₂ hge₂ hFal le_rfl
      (hTF.trans hTM) (show tf < 2 ^ 64 by omega) (show PTE_R ||| PTE_W < 2 ^ 10 by decide)
      (hleaf₂ TRAPFRAME (hTF.trans hTM) hpages)
    have ho₃ : ∀ q, m₃.Owns pt q ↔ q ∈ m.free := fun q => (hc₃ q).trans (ho₂ q)
    have hrun : procPagetable m trampoline tf =
        (if r' < 0 then do
          let m ← uvmunmap m₃ pt TRAMPOLINE 1 false
          let m ← uvmfree m pt 0
          pure (0, m)
        else pure (pt, m₃)) := by
      rw [procPagetable, hc]
      dsimp only
      rw [if_neg hpt0, hmap₂, ok_bind]
      dsimp only
      rw [if_neg (by decide), hmap₃, ok_bind]
    rcases hres₃ with ⟨rfl, hself₃, hother₃⟩ | ⟨rfl, hsame₃⟩
    · -- both mapped: the trapframe page was no page of `m₂`, the process has no page below
      -- `TRAPFRAME`
      have hnown : ¬ m₂.Owns pt tf := fun h => htf ((ho₂ tf).mp h)
      have htfpa : PTE2PA (leafPte tf (PTE_R ||| PTE_W)) = tf :=
        PTE2PA_leafPte htfal (by omega) (by decide)
      have hW₃ : Wf m₃ pt := by
        apply hW₂.map_page hg₃ hT₃ hself₃ hother₃ <;> rw [htfpa]
        · exact hk₂ ▸ htfge
        · exact htflt
        · exact fun h => hnown (.inl h)
        · exact fun va l t hl ht he => hnown (.inr (.inl ⟨va, l, hl, he ▸ ht⟩))
        · intro a v ha h he
          by_cases hp : a / PGSIZE = TRAMPOLINE / PGSIZE
          · rw [Machine.leaf_of_page hp, hself₂] at h
            cases h
            rw [htrpa] at he
            omega
          · rw [hleaf₂ a ha hp] at h
            cases h
      refine ⟨pt, m₃, by rw [hrun, if_neg (by decide)]; rfl, hg₃.kend.trans hk₂,
        hW₃.tree.free_nodup, .inr ⟨hpt0, ⟨hW₃, Nat.zero_le _, fun va _ hva => ?_⟩, hS₃, hself₃, ho₃⟩⟩
      rw [hother₃ va (by omega) (page_ne_of_not_mem hFal (.inl hva))]
      exact hleaf₂ va (by omega) (page_ne_of_not_mem hTal (.inl (by omega)))
    · -- the trapframe's `mappages` failed: unmap the trampoline and free the tables
      have hW₃ : Wf m₃ pt := hW₂.of_grows hg₃ hT₃ fun va v _ h => (hsame₃ va) ▸ h
      obtain ⟨m₄, hun₄, hW₄, hS₄, hf₄, hk₄, ht₄, hl₄, ho₄⟩ := uvmunmap_one hW₃ hS₃ hTM hTal
      have hnone₄ : ∀ va, va < MAXVA → m₄.leaf pt va = none := by
        intro va hva
        by_cases hp : va / PGSIZE = TRAMPOLINE / PGSIZE
        · rw [Machine.leaf_of_page hp]
          exact hl₄
        · rw [ho₄ va hva hp, hsame₃]
          exact hleaf₂ va hva hp
      obtain ⟨m₅, hfree₅, hnd₅, hk₅, hmem₅⟩ := uvmfree_empty hW₄ hS₄ hnone₄
      have hc₄ : Conserves m₃ m₄ pt := Conserves.of_same hf₄ ht₄ fun va hva =>
        ho₄ va (by omega) (page_ne_of_not_mem hTal (.inl (by omega)))
      refine ⟨0, m₅, ?_, hk₅.trans (hk₄.trans (hg₃.kend.trans hk₂)), hnd₅,
        .inl ⟨rfl, fun q => (hmem₅ q).trans ((hc₄ q).trans (ho₃ q))⟩⟩
      rw [hrun, if_pos (by decide), hun₄, ok_bind, hfree₅, ok_bind]
      rfl
  · -- the trampoline's `mappages` failed: free the tables
    have hW₂ : Wf m₂ pt := hW₁.of_grows hg₂ hT₂ fun va v _ h => (hsame₂ va) ▸ h
    obtain ⟨m₃, hfree₃, hnd₃, hk₃, hmem₃⟩ :=
      uvmfree_empty hW₂ hS₂ fun va _ => (hsame₂ va).trans (hl₁ va)
    refine ⟨0, m₃, ?_, hk₃.trans hk₂, hnd₃, .inl ⟨rfl, fun q => (hmem₃ q).trans (ho₂ q)⟩⟩
    rw [procPagetable, hc]
    dsimp only
    rw [if_neg hpt0, hmap₂, ok_bind]
    dsimp only
    rw [if_pos (by decide), hfree₃, ok_bind]
    rfl

end Pagetable

/-! ## `freeproc` -/

section Free

variable {m m' : Machine} {pt : Nat}

/-- `uvmunmap` of one page without `do_free` commutes with `kfree` of a page that is no table:
it reads and writes table entries only. -/
theorem uvmunmap_one_kfree (hT : Tree m pt) {q a : Nat} (hal : q % PGSIZE = 0)
    (hnt : ∀ va l t, l ≤ 2 → m.table pt va l = some t → t ≠ q) (ha : a < MAXVA)
    (hm : uvmunmap m pt a 1 false = .ok m') :
    uvmunmap { m.memset q 1 PGSIZE with free := q :: m.free } pt a 1 false =
      .ok { m'.memset q 1 PGSIZE with free := q :: m'.free } := by
  have haal : a % PGSIZE = 0 := by
    by_contra h
    rw [uvmunmap, if_pos h] at hm
    cases hm
  -- a byte of a table lies off the freed page
  have hoff : ∀ i, (∃ l ≤ 2, m.InTable pt l i) → i < q ∨ q + PGSIZE ≤ i := by
    rintro i ⟨l, hl, va, t, ht, h1, h2⟩
    have := pages_apart (hT.aligned va l t ht) hal (hnt va l t hl ht) ⟨h1, h2⟩
    omega
  have hmemK : ∀ i, (∃ l ≤ 2, m.InTable pt l i) →
      ({ m.memset q 1 PGSIZE with free := q :: m.free } : Machine).mem i = m.mem i :=
    fun i hi => Machine.mem_memset_of_apart (hoff i hi)
  obtain ⟨ht, hl⟩ := tables_of_mem hmemK
  rw [uvmunmap, if_neg (not_not.mpr haal)] at hm ⊢
  cases hleaf : m.leaf pt a with
  | none =>
    rw [uvmunmapLoop_skip ha hleaf] at hm
    rw [uvmunmapLoop_skip ha ((hl a).trans hleaf)]
    cases hm
    rfl
  | some v =>
    obtain ⟨e, hs, hv, rfl⟩ := Machine.leaf_eq_some.mp hleaf
    obtain ⟨t0, h0, rfl⟩ := Machine.slot_eq_some.mp hs
    have hpg := entry_mem_page t0 0 a
    -- the one turn of the loop clears the valid leaf entry
    have hturn : ∀ X : Machine, X.slot pt a = some (t0 + 8 * PX 0 a) →
        X.pte (t0 + 8 * PX 0 a) &&& PTE_V ≠ 0 →
        uvmunmapLoop pt false 1 a X = .ok (X.setPte (t0 + 8 * PX 0 a) 0) := by
      intro X hsX hvX
      rw [uvmunmapLoop, walk_false ha, ok_bind]
      dsimp only
      rw [hsX]
      dsimp only
      rw [if_neg hvX]
      rfl
    rw [hturn m hs hv] at hm
    cases hm
    -- after the `kfree` the path and the entry read the same
    have hsK : ({ m.memset q 1 PGSIZE with free := q :: m.free } : Machine).slot pt a =
        some (t0 + 8 * PX 0 a) := by
      rw [Machine.slot, ht a 0]
      exact hs
    have hpK : ({ m.memset q 1 PGSIZE with free := q :: m.free } : Machine).pte (t0 + 8 * PX 0 a) =
        m.pte (t0 + 8 * PX 0 a) :=
      Machine.pte_congr fun i h1 h2 =>
        Machine.mem_memset_of_apart (hoff i ⟨0, by omega, a, t0, h0, by omega, by omega⟩)
    have hvK : ({ m.memset q 1 PGSIZE with free := q :: m.free } : Machine).pte (t0 + 8 * PX 0 a) &&&
        PTE_V ≠ 0 := by
      rw [hpK]
      exact hv
    rw [hturn _ hsK hvK]
    -- the store and the `kfree` touch pages apart, so they commute
    have hapart : t0 + 8 * PX 0 a + 8 ≤ q ∨ q + PGSIZE ≤ t0 + 8 * PX 0 a := by
      have := hoff (t0 + 8 * PX 0 a) ⟨0, by omega, a, t0, h0, by omega, by omega⟩
      have hal0 := hT.aligned a 0 t0 h0
      unfold PGSIZE at hal hal0 hpg this ⊢
      omega
    have hmem := Machine.setPte_memset_comm m (v := 0) (c := 1) hapart
    simp only [Machine.setPte, Machine.memset] at hmem ⊢
    rw [hmem]

/-- `freeproc(p)` of a process image of this shape whose trapframe, the page `tf`, is mapped at
`TRAPFRAME`: it does not panic, and the free list then holds, each once, the trapframe and the
pages the process held. `kfree` of the trapframe comes first, while it is still mapped; it
commutes with the unmaps that start `proc_freepagetable`. -/
theorem Image.freeproc_frees {p : Proc} {tf : Nat} (h : Image m p) (hS : Shape m p.pagetable)
    (htf : ∃ v, m.leaf p.pagetable TRAPFRAME = some v ∧ PTE2PA v = tf) (hpt : p.pagetable ≠ 0) :
    ∃ m', freeproc m tf p = .ok m' ∧ m'.free.Nodup ∧
      ∀ q, q ∈ m'.free ↔ q = tf ∨ m.Owns p.pagetable q := by
  obtain ⟨v, hv, rfl⟩ := htf
  obtain ⟨hTal, hFal, hTM, hTF, -⟩ := top_pages
  have hal := PTE2PA_aligned v
  have hge := h.wf.frame_ge TRAPFRAME v hTF hv
  have hlt := h.wf.frame_lt TRAPFRAME v hTF hv
  have hne0 : PTE2PA v ≠ 0 := by
    have := h.wf.kend_pos
    omega
  -- the trapframe is no table and no free page
  have hnt : ∀ va l t, l ≤ 2 → m.table p.pagetable va l = some t → t ≠ PTE2PA v :=
    fun va l t hl ht he => h.wf.frame_not_table TRAPFRAME v va l t (hTF.trans hTM) hv hl ht he.symm
  have hnf := h.wf.frame_not_free TRAPFRAME v (hTF.trans hTM) hv
  obtain ⟨m₁, m₂, h₁, hT₁, ht₁, h₂, hW₂, hS₂, hf₂, hk₂, ht₂, hlow, hnone⟩ := h.unmap_top hS
  have hnt₂ : ∀ va l t, l ≤ 2 → m₂.table p.pagetable va l = some t → t ≠ PTE2PA v :=
    fun va l t hl ht => hnt va l t hl ((ht₂ va l) ▸ ht)
  -- unmapped, the trapframe is no frame any more
  have hfr₂ : ∀ a v', a < MAXVA → m₂.leaf p.pagetable a = some v' → PTE2PA v' ≠ PTE2PA v := by
    intro a v' ha hl he
    by_cases hat : a < TRAPFRAME
    · rw [hlow a hat] at hl
      exact page_ne_of_not_mem hFal (.inl hat)
        (h.wf.frame_inj a TRAPFRAME v' v ha (hTF.trans hTM) hl hv he)
    · rw [hnone a (by have := PGROUNDUP_le_TRAPFRAME h.sz_le; omega) ha] at hl
      cases hl
  obtain ⟨hWK, htK, hlK⟩ := hW₂.kfree hal (hk₂ ▸ hge) hlt (hf₂ ▸ hnf) hnt₂ hfr₂
  have hSK : Shape { m₂.memset (PTE2PA v) 1 PGSIZE with free := PTE2PA v :: m₂.free } p.pagetable :=
    hS₂.of_page_write hW₂.tree hal hnt₂ htK (by dsimp only; exact Machine.memset_kend)
      fun i hi => by
        dsimp only
        exact Machine.mem_memset_of_apart (by omega)
  obtain ⟨m', hfree, hnd, hmem⟩ := h.uvmfree_owns hWK hSK (fun va hva => (hlK va).trans (hlow va hva))
    fun va h1 h2 => (hlK va).trans (hnone va h1 h2)
  refine ⟨m', ?_, hnd, fun q => ?_⟩
  · -- `kfree` first, then the two unmaps, which it commutes with, and `uvmfree`
    rw [freeproc, if_pos hne0, kfree_ok hal hge hlt, ok_bind]
    beta_reduce
    rw [if_pos hpt, procFreepagetable,
      uvmunmap_one_kfree h.wf.tree hal hnt hTM h₁, ok_bind,
      uvmunmap_one_kfree hT₁ hal (fun va l t hl ht => hnt va l t hl ((ht₁ va l) ▸ ht))
        (hTF.trans hTM) h₂, ok_bind]
    exact hfree
  · -- the trapframe is the head of the free list, the tables are those of before
    have hfK : ({ m₂.memset (PTE2PA v) 1 PGSIZE with free := PTE2PA v :: m₂.free } : Machine).free =
        PTE2PA v :: m.free := by
      rw [← hf₂]
    have htabK : ({ m₂.memset (PTE2PA v) 1 PGSIZE with free := PTE2PA v :: m₂.free } :
        Machine).IsTable p.pagetable q ↔ m.IsTable p.pagetable q := by
      unfold Machine.IsTable
      simp only [htK, ht₂]
    rw [hmem, hfK, List.mem_cons, htabK]
    exact or_assoc

end Free

/-! ## From `allocproc` to `freeproc` -/

section Life

variable {m m₀ : Machine} {tf trampoline : Nat}

/-- `kalloc()` of a page off a free list it can hand out: the page is the head of the list, a
page of RAM above the kernel, and the rest is again a free list it can hand out. -/
theorem Kmem.kalloc_some (hK : Kmem m) (h : kalloc m = (some tf, m₀)) :
    m.free = tf :: m₀.free ∧ m₀.kend = m.kend ∧ Kmem m₀ ∧ tf % PGSIZE = 0 ∧ m₀.kend ≤ tf ∧
      tf < PHYSTOP := by
  cases hfree : m.free with
  | nil =>
    rw [kalloc, hfree] at h
    cases h
  | cons q rest =>
    have hmem : ∀ x ∈ rest, x ∈ m.free := fun x hx => hfree ▸ List.mem_cons_of_mem q hx
    have hq : q ∈ m.free := hfree ▸ List.mem_cons_self
    rw [kalloc, hfree] at h
    cases h
    exact ⟨rfl, rfl, ⟨hK.kend_pos, fun x hx => hK.aligned x (hmem x hx), fun x hx => hK.ge x (hmem x hx),
      fun x hx => hK.lt x (hmem x hx), (List.nodup_cons.mp (hfree ▸ hK.nodup)).2⟩,
      hK.aligned _ hq, hK.ge _ hq, hK.lt _ hq⟩

/-- A process made by `allocproc`, whatever `sbrk` calls and page faults it then makes, gives
back every page when `freeproc` frees it: the free list at the end is a permutation of the one
before `allocproc`. When `allocproc` fails, it has given back what it took. -/
theorem allocproc_freeproc (hK : Kmem m) (htral : trampoline % PGSIZE = 0)
    (htrlt : trampoline < m.kend) (ops : List MemOp) :
    ∃ r m₁, allocproc m trampoline = .ok (r, m₁) ∧ (r = none → m₁.free.Perm m.free) ∧
      ∀ tf p, r = some (tf, p) → ∃ p' m' m'', memRun m₁ p ops = .ok (p', m') ∧
        freeproc m' tf p' = .ok m'' ∧ m''.free.Perm m.free := by
  cases hka : kalloc m with
  | mk otf m₀ =>
  cases otf with
  | none =>
    -- no page for the trapframe: `freeproc` of the empty slot gives nothing back
    refine ⟨none, m₀, ?_, fun _ => ?_, fun _ _ h => by cases h⟩
    · rw [allocproc, hka]
      rfl
    · have hm : m₀ = m := by
        cases hfree : m.free with
        | nil =>
          rw [kalloc, hfree] at hka
          exact (Prod.mk.inj hka).2.symm
        | cons q rest =>
          rw [kalloc, hfree] at hka
          cases hka
      rw [hm]
  | some tf =>
    obtain ⟨hfree, hk₀, hK₀, htfal, htfge, htflt⟩ := hK.kalloc_some hka
    have hnd : (tf :: m₀.free).Nodup := hfree ▸ hK.nodup
    have htf : tf ∉ m₀.free := (List.nodup_cons.mp hnd).1
    obtain ⟨pt, m₁, hpp, hk₁, hnd₁, hres⟩ :=
      hK₀.procPagetable_run htf htfal htfge htflt htral (hk₀ ▸ htrlt)
    have htf0 : tf ≠ 0 := by
      have := hK₀.kend_pos
      omega
    rw [hfree]
    rcases hres with ⟨rfl, hmem₁⟩ | ⟨hpt0, hI, hS, hleaf, hown⟩
    · -- no page table: `freeproc` gives the trapframe back
      refine ⟨none, { m₁.memset tf 1 PGSIZE with free := tf :: m₁.free }, ?_, fun _ => ?_,
        fun _ _ h => by cases h⟩
      · rw [allocproc, hka]
        dsimp only
        rw [hpp, ok_bind]
        dsimp only
        rw [if_pos rfl, freeproc, if_pos htf0, kfree_ok htfal (hk₁ ▸ htfge) htflt, ok_bind]
        rfl
      · exact List.Perm.cons tf ((List.perm_ext_iff_of_nodup hnd₁ hK₀.nodup).mpr hmem₁)
    · refine ⟨some (tf, ⟨pt, 0⟩), m₁, ?_, fun h => (by cases h), ?_⟩
      · rw [allocproc, hka]
        dsimp only
        rw [hpp, ok_bind]
        dsimp only
        rw [if_neg hpt0]
        rfl
      rintro tf' p ⟨⟩
      -- the calls keep the image, its top pages and the pages it holds
      obtain ⟨p', m', hrun, h', hpt', htop, -⟩ := Image.run_spec ops m₁ ⟨pt, 0⟩ hI
      obtain ⟨hS', hc⟩ := Image.run_conserves ops m₁ ⟨pt, 0⟩ p' m' hI hS hrun
      have htfpa : PTE2PA (leafPte tf (PTE_R ||| PTE_W)) = tf :=
        PTE2PA_leafPte htfal (by unfold PHYSTOP KERNBASE at htflt; omega) (by decide)
      obtain ⟨-, hFal, hTM, hTF, -⟩ := top_pages
      have htf' : ∃ v, m'.leaf p'.pagetable TRAPFRAME = some v ∧ PTE2PA v = tf := by
        refine ⟨_, ?_, htfpa⟩
        rw [hpt', htop TRAPFRAME le_rfl (hTF.trans hTM)]
        exact hleaf
      obtain ⟨m'', hfp, hnd'', hmem''⟩ :=
        h'.freeproc_frees (hpt' ▸ hS') htf' (by rw [hpt']; exact hpt0)
      refine ⟨p', m', m'', hrun, hfp, (List.perm_ext_iff_of_nodup hnd'' hnd).mpr fun q => ?_⟩
      rw [hmem'', List.mem_cons, hpt', hc q, hown q]

/-- Zeroed memory, the kernel below `0x80040000`, and eight free pages of RAM. -/
def bootMachine : Machine :=
  { mem := fun _ => 0, kend := 0x80040000,
    free := [0x87000000, 0x87001000, 0x87002000, 0x87003000, 0x87004000, 0x87005000, 0x87006000,
      0x87007000] }

theorem bootMachine_kmem : Kmem bootMachine :=
  ⟨by decide, by decide, by decide, by decide, by decide⟩

theorem allocproc_freeproc_bootMachine :
    Kmem bootMachine ∧ 0x80001000 % PGSIZE = 0 ∧ 0x80001000 < bootMachine.kend ∧
      ∃ r m₁, allocproc bootMachine 0x80001000 = .ok (r, m₁) ∧
        (r = none → m₁.free.Perm bootMachine.free) ∧
        ∀ tf p, r = some (tf, p) → ∃ p' m' m'', memRun m₁ p
            [.sbrk 4096 SBRK_LAZY, .fault 0, .sbrk 8192 SBRK_EAGER, .sbrk (-4096) SBRK_EAGER] =
            .ok (p', m') ∧
          freeproc m' tf p' = .ok m'' ∧ m''.free.Perm bootMachine.free :=
  ⟨bootMachine_kmem, by decide, by decide, allocproc_freeproc bootMachine_kmem (by decide)
    (by decide) _⟩

end Life

end Xv6.Vm
