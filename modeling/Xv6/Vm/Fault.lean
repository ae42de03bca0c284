import Xv6.Vm.Map

/-!
# Xv6.Vm.Fault — lazily allocated pages and what a process sees of its memory

`sbrklazy` grows `p->sz` without mapping anything; a page below `sz` with no translation is
filled on first use by `vmfault`, which maps a fresh zeroed page there. `copyin` and `copyout`
call it for such pages.

Two layers sit over the page table of `Xv6.Vm.Walk`:

* `Wf m pt`, the well-formedness of a process's memory: the table is a tree, and every page it
  maps is a frame of its own that is neither a table page nor free, in RAM above the kernel for
  every page below the trampoline.
  It is kept by popping the free list (`Wf.pop`), by every write off the table pages
  (`Wf.of_mem`), by growing the tree (`Wf.of_grows`), by mapping a new page to a page the caller
  owns (`Wf.map_page`) and by `kfree` of such a page (`Wf.kfree`).
* `Machine.view m p va`, the byte a load of `va` by process `p` reads: the byte of a user page,
  zero on a page below `sz` that has no translation yet, nothing elsewhere. A write to a frame
  changes the view at that frame's page only (`view_write_frame`), and `vmfault` on a lazy page
  does not change it at all (`vmfault_lazy`): it only makes the zeros real.
-/

namespace Xv6.Vm

open Xv6.Lib

/-- The fields of `struct proc` that `vmfault` reads of `myproc()`. -/
structure Proc where
  pagetable : Nat
  sz : Nat

theorem lt_MAXVA_of_lt_TRAMPOLINE {va : Nat} (h : va < TRAMPOLINE) : va < MAXVA := by
  unfold TRAMPOLINE at h
  omega

theorem TRAMPOLINE_lt_MAXVA : TRAMPOLINE < MAXVA := by
  decide

theorem TRAPFRAME_le_MAXVA : TRAPFRAME ≤ MAXVA := by
  unfold TRAPFRAME TRAMPOLINE
  omega

/-- `ismapped(pagetable, va)`. -/
def ismapped (m : Machine) (pt va : Nat) : Except String Bool := do
  let (pte, m) ← walk m pt va false
  match pte with
  | none => pure false
  | some pte => if m.pte pte &&& PTE_V ≠ 0 then pure true else pure false

/-- `vmfault(pagetable, va, read)` in process `p`; the source does not use `read`. The page is
looked up in `pagetable` but mapped in `p->pagetable`. -/
def vmfault (p : Proc) (m : Machine) (pt va : Nat) : Except String (Nat × Machine) :=
  if va ≥ p.sz then pure (0, m)
  else do
    let va := PGROUNDDOWN va
    if ← ismapped m pt va then pure (0, m)
    else
      match kalloc m with
      | (none, m) => pure (0, m)
      | (some mem, m) =>
        let m := m.memset mem 0 PGSIZE
        let (r, m) ← mappages m p.pagetable va PGSIZE mem (PTE_W ||| PTE_U ||| PTE_R)
        if r ≠ 0 then
          let m ← kfree m mem
          pure (0, m)
        else pure (mem, m)

/-! ## Well-formed user memory -/

/-- The memory of the table at `pt` is well formed: the table is a tree, every page it maps
below `MAXVA` has a frame of its own that is neither a table page nor free, in RAM above the
kernel below `TRAMPOLINE` (the trampoline page maps the kernel's own text), and the free pages
lie above the kernel. -/
structure Wf (m : Machine) (pt : Nat) : Prop where
  tree : Tree m pt
  kend_pos : 0 < m.kend
  free_ge : ∀ q ∈ m.free, m.kend ≤ q
  frame_ge : ∀ va v, va < TRAMPOLINE → m.leaf pt va = some v → m.kend ≤ PTE2PA v
  frame_lt : ∀ va v, va < TRAMPOLINE → m.leaf pt va = some v → PTE2PA v < PHYSTOP
  frame_not_table : ∀ va v va' l t, va < MAXVA → m.leaf pt va = some v → l ≤ 2 →
    m.table pt va' l = some t → PTE2PA v ≠ t
  frame_not_free : ∀ va v, va < MAXVA → m.leaf pt va = some v → PTE2PA v ∉ m.free
  frame_inj : ∀ va va' v v', va < MAXVA → va' < MAXVA → m.leaf pt va = some v →
    m.leaf pt va' = some v' → PTE2PA v = PTE2PA v' → va / PGSIZE = va' / PGSIZE

/-- Every byte of every page that `m` maps below `MAXVA` is the same in `m'`. -/
def FramesKept (m m' : Machine) (pt : Nat) : Prop :=
  ∀ a v o, a < MAXVA → m.leaf pt a = some v → o < PGSIZE →
    m'.mem (PTE2PA v + o) = m.mem (PTE2PA v + o)

/-- Every entry names a page-aligned address. -/
theorem PTE2PA_aligned (pte : Nat) : PTE2PA pte % PGSIZE = 0 := by
  rw [PTE2PA, Nat.shiftLeft_eq]
  unfold PGSIZE
  omega

/-- Two distinct page-aligned addresses start pages that do not meet. -/
theorem pages_apart {a b i : Nat} (ha : a % PGSIZE = 0) (hb : b % PGSIZE = 0) (hne : a ≠ b)
    (hi : a ≤ i ∧ i < a + PGSIZE) : ¬ (b ≤ i ∧ i < b + PGSIZE) := by
  unfold PGSIZE at ha hb hi ⊢
  omega

section Wf

variable {m m' : Machine} {pt : Nat}

/-- A frame's bytes lie off every table page and every free page. -/
theorem Wf.frame_off (hW : Wf m pt) {va v i : Nat} (hva : va < MAXVA) (hl : m.leaf pt va = some v)
    (hi : PTE2PA v ≤ i ∧ i < PTE2PA v + PGSIZE) :
    (∀ l ≤ 2, ¬ m.InTable pt l i) ∧ ¬ m.InFree i := by
  constructor
  · rintro l hl2 ⟨va', t, ht, hin⟩
    exact pages_apart (PTE2PA_aligned v) (hW.tree.aligned va' l t ht)
      (hW.frame_not_table va v va' l t hva hl hl2 ht) hi hin
  · rintro ⟨q, hq, hin⟩
    have hne : PTE2PA v ≠ q := fun h => hW.frame_not_free va v hva hl (h ▸ hq)
    exact pages_apart (PTE2PA_aligned v) (hW.tree.free_aligned q hq) hne hi hin

/-- A write that leaves every table page keeps the tables and the translations. -/
theorem tables_of_mem (hmem : ∀ i, (∃ l ≤ 2, m.InTable pt l i) → m'.mem i = m.mem i) :
    (∀ va l, m'.table pt va l = m.table pt va l) ∧ ∀ va, m'.leaf pt va = m.leaf pt va := by
  have ht : ∀ va l, m'.table pt va l = m.table pt va l :=
    table_congr fun i hi => hmem i (hi.elim (fun h => ⟨2, le_refl 2, h⟩) fun h => ⟨1, by omega, h⟩)
  refine ⟨ht, fun va => ?_⟩
  apply leaf_eq_of_table (ht va 0)
  intro t0 h0
  have hpg := entry_mem_page t0 0 va
  exact Machine.pte_congr fun i h1 h2 => hmem i ⟨0, by omega, va, t0, h0, by omega, by omega⟩

/-- A write that leaves every table page keeps the tables, the translations and the
well-formedness. -/
theorem Wf.of_mem (hW : Wf m pt) (hmem : ∀ i, (∃ l ≤ 2, m.InTable pt l i) → m'.mem i = m.mem i)
    (hf : m'.free = m.free) (hk : m'.kend = m.kend) :
    Wf m' pt ∧ (∀ va l, m'.table pt va l = m.table pt va l) ∧
      ∀ va, m'.leaf pt va = m.leaf pt va := by
  obtain ⟨ht, hl⟩ := tables_of_mem hmem
  refine ⟨⟨hW.tree.congr ht hf, hk ▸ hW.kend_pos, ?_, ?_, ?_, ?_, ?_, ?_⟩, ht, hl⟩
  · intro q hq
    exact hk ▸ hW.free_ge q (hf ▸ hq)
  · intro va v hva h
    exact hk ▸ hW.frame_ge va v hva (hl va ▸ h)
  · intro va v hva h
    exact hW.frame_lt va v hva (hl va ▸ h)
  · intro va v va' l t hva h hl2 h'
    exact hW.frame_not_table va v va' l t hva (hl va ▸ h) hl2 (ht va' l ▸ h')
  · intro va v hva h
    exact hf ▸ hW.frame_not_free va v hva (hl va ▸ h)
  · intro va va' v v' hva hva' h h'
    exact hW.frame_inj va va' v v' hva hva' (hl va ▸ h) (hl va' ▸ h')

/-- Taking the first free page keeps the memory well formed. -/
theorem Wf.pop (hW : Wf m pt) {q : Nat} {rest : List Nat} (hfree : m.free = q :: rest) :
    Wf { m with free := rest } pt := by
  have hsub : rest.Sublist m.free := hfree ▸ List.sublist_cons_self q rest
  refine ⟨hW.tree.of_sublist (fun _ _ => rfl) hsub, hW.kend_pos, fun q' hq' => hW.free_ge q'
    (hsub.subset hq'), hW.frame_ge, hW.frame_lt, hW.frame_not_table, ?_, hW.frame_inj⟩
  intro va v hva h hm
  exact hW.frame_not_free va v hva h (hsub.subset hm)

/-- Growing the tree with no new translation keeps the memory well formed. -/
theorem Wf.of_grows (hW : Wf m pt) (hg : Grows m m' pt) (hT' : Tree m' pt)
    (hl : ∀ va v, va < MAXVA → m'.leaf pt va = some v → m.leaf pt va = some v) : Wf m' pt := by
  refine ⟨hT', hg.kend ▸ hW.kend_pos, fun q hq => hg.kend ▸ hW.free_ge q (hg.free.subset hq),
    fun va v hva h => hg.kend ▸ hW.frame_ge va v hva (hl va v (lt_MAXVA_of_lt_TRAMPOLINE hva) h),
    fun va v hva h => hW.frame_lt va v hva (hl va v (lt_MAXVA_of_lt_TRAMPOLINE hva) h), ?_, ?_,
    ?_⟩
  · intro va v va' l t hva h hl2 ht
    rcases hg.table va' l t ht with ht | ht
    · exact hW.frame_not_table va v va' l t hva (hl va v hva h) hl2 ht
    · exact fun he => hW.frame_not_free va v hva (hl va v hva h) (he ▸ ht)
  · intro va v hva h hm
    exact hW.frame_not_free va v hva (hl va v hva h) (hg.free.subset hm)
  · intro va va' v v' hva hva' h h'
    exact hW.frame_inj va va' v v' hva hva' (hl va v hva h) (hl va' v' hva' h')

/-- A write confined to a page that is no table page keeps the tables, the translations and the
well-formedness. -/
theorem Wf.of_page_write (hW : Wf m pt) {q : Nat} (hal : q % PGSIZE = 0)
    (hnt : ∀ va l t, l ≤ 2 → m.table pt va l = some t → t ≠ q)
    (hmem : ∀ i, ¬ (q ≤ i ∧ i < q + PGSIZE) → m'.mem i = m.mem i) (hf : m'.free = m.free)
    (hk : m'.kend = m.kend) :
    Wf m' pt ∧ (∀ va l, m'.table pt va l = m.table pt va l) ∧
      ∀ va, m'.leaf pt va = m.leaf pt va := by
  apply hW.of_mem _ hf hk
  rintro i ⟨l, hl, va, t, ht, hin⟩
  exact hmem i (pages_apart (hW.tree.aligned va l t ht) hal (hnt va l t hl ht) hin)

/-- Mapping a page with no translation to a page `f` that is no frame, table or free page,
by growing the tree, keeps the memory well formed. -/
theorem Wf.map_page (hW : Wf m pt) (hg : Grows m m' pt) (hT' : Tree m' pt) {va v : Nat}
    (hnew : m'.leaf pt va = some v)
    (hold : ∀ a, a < MAXVA → a / PGSIZE ≠ va / PGSIZE → m'.leaf pt a = m.leaf pt a)
    (hge : m.kend ≤ PTE2PA v) (hlt : PTE2PA v < PHYSTOP) (hnf : PTE2PA v ∉ m.free)
    (hnt : ∀ va' l t, l ≤ 2 → m.table pt va' l = some t → t ≠ PTE2PA v)
    (hfr : ∀ a v', a < MAXVA → m.leaf pt a = some v' → PTE2PA v' ≠ PTE2PA v) : Wf m' pt := by
  -- a translation of `m'` is the new one, on `va`'s page, or one of `m`
  have hcase : ∀ a w, a < MAXVA → m'.leaf pt a = some w →
      (a / PGSIZE = va / PGSIZE ∧ w = v) ∨ (a / PGSIZE ≠ va / PGSIZE ∧ m.leaf pt a = some w) := by
    intro a w ha h
    by_cases hp : a / PGSIZE = va / PGSIZE
    · rw [Machine.leaf_of_page hp, hnew] at h
      exact .inl ⟨hp, (Option.some.inj h).symm⟩
    · exact .inr ⟨hp, hold a ha hp ▸ h⟩
  refine ⟨hT', hg.kend ▸ hW.kend_pos, fun q hq => hg.kend ▸ hW.free_ge q (hg.free.subset hq),
    ?_, ?_, ?_, ?_, ?_⟩
  · intro a w ha h
    rw [hg.kend]
    rcases hcase a w (lt_MAXVA_of_lt_TRAMPOLINE ha) h with ⟨-, rfl⟩ | ⟨-, h⟩
    · exact hge
    · exact hW.frame_ge a w ha h
  · intro a w ha h
    rcases hcase a w (lt_MAXVA_of_lt_TRAMPOLINE ha) h with ⟨-, rfl⟩ | ⟨-, h⟩
    · exact hlt
    · exact hW.frame_lt a w ha h
  · intro a w va' l t ha h hl ht
    rcases hg.table va' l t ht with ht | ht <;> rcases hcase a w ha h with ⟨-, rfl⟩ | ⟨-, h⟩
    · exact (hnt va' l t hl ht).symm
    · exact hW.frame_not_table a w va' l t ha h hl ht
    · exact fun he => hnf (he ▸ ht)
    · exact fun he => hW.frame_not_free a w ha h (he ▸ ht)
  · intro a w ha h hm
    rcases hcase a w ha h with ⟨-, rfl⟩ | ⟨-, h⟩
    · exact hnf (hg.free.subset hm)
    · exact hW.frame_not_free a w ha h (hg.free.subset hm)
  · intro a a' w w' ha ha' h h' he
    rcases hcase a w ha h with ⟨hp, rfl⟩ | ⟨hp, h⟩ <;>
      rcases hcase a' w' ha' h' with ⟨hp', rfl⟩ | ⟨hp', h'⟩
    · exact hp.trans hp'.symm
    · exact absurd he.symm (hfr a' w' ha' h')
    · exact absurd he (hfr a w ha h)
    · exact hW.frame_inj a a' w w' ha ha' h h' he

/-- `kfree` of a page-aligned page of RAM above the kernel. -/
theorem kfree_ok {q : Nat} (hal : q % PGSIZE = 0) (hge : m.kend ≤ q) (hlt : q < PHYSTOP) :
    kfree m q = .ok { m.memset q 1 PGSIZE with free := q :: m.free } := by
  rw [kfree, if_neg]
  unfold PGSIZE at hal ⊢
  omega

/-- Giving back a page that is neither a table, a frame nor free keeps the memory well formed
and every translation. -/
theorem Wf.kfree (hW : Wf m pt) {q : Nat} (hal : q % PGSIZE = 0) (hge : m.kend ≤ q)
    (hlt : q < PHYSTOP) (hnf : q ∉ m.free) (hnt : ∀ va l t, l ≤ 2 → m.table pt va l = some t → t ≠ q)
    (hfr : ∀ va v, va < MAXVA → m.leaf pt va = some v → PTE2PA v ≠ q) :
    Wf { m.memset q 1 PGSIZE with free := q :: m.free } pt ∧
      (∀ va l, ({ m.memset q 1 PGSIZE with free := q :: m.free } : Machine).table pt va l =
        m.table pt va l) ∧
      ∀ va, ({ m.memset q 1 PGSIZE with free := q :: m.free } : Machine).leaf pt va = m.leaf pt va := by
  have hmem : ∀ i, ¬ (q ≤ i ∧ i < q + PGSIZE) → (m.memset q 1 PGSIZE).mem i = m.mem i :=
    fun i hi => Machine.mem_memset_of_apart (by omega)
  obtain ⟨hW₁, ht₁, hl₁⟩ := hW.of_page_write hal hnt hmem rfl rfl
  have ht : ∀ va l, ({ m.memset q 1 PGSIZE with free := q :: m.free } : Machine).table pt va l =
      m.table pt va l := ht₁
  have hl : ∀ va, ({ m.memset q 1 PGSIZE with free := q :: m.free } : Machine).leaf pt va =
      m.leaf pt va := hl₁
  refine ⟨⟨⟨?_, ?_, ?_, ?_, ?_, ?_⟩, hW.kend_pos, ?_, ?_, ?_, ?_, ?_, ?_⟩, ht, hl⟩
  · intro va l t h
    exact hW.tree.aligned va l t (ht va l ▸ h)
  · intro va l t h hm
    rcases List.mem_cons.mp hm with rfl | hm
    · -- only the levels `walk` reaches are tables
      have hl2 : l ≤ 2 ∨ 2 < l := by omega
      rcases hl2 with hl2 | hl2
      · exact hnt va l t hl2 (ht va l ▸ h) rfl
      · have h2 : m.table pt va l = m.table pt va 2 := by
          match l, hl2 with
          | l + 3, _ => rfl
        exact hnt va 2 t (le_refl 2) (h2 ▸ ht va l ▸ h) rfl
    · exact hW.tree.not_free va l t (ht va l ▸ h) hm
  · intro va va' l l' t hl hl' h h'
    exact hW.tree.inj va va' l l' t hl hl' (ht va l ▸ h) (ht va' l' ▸ h')
  · intro q' hq'
    rcases List.mem_cons.mp hq' with rfl | hq'
    · exact hal
    · exact hW.tree.free_aligned q' hq'
  · intro q' hq'
    rcases List.mem_cons.mp hq' with rfl | hq'
    · exact hlt
    · exact hW.tree.free_lt q' hq'
  · exact List.nodup_cons.mpr ⟨hnf, hW.tree.free_nodup⟩
  · intro q' hq'
    rcases List.mem_cons.mp hq' with rfl | hq'
    · exact hge
    · exact hW.free_ge q' hq'
  · intro va v hva h
    exact hW.frame_ge va v hva (hl va ▸ h)
  · intro va v hva h
    exact hW.frame_lt va v hva (hl va ▸ h)
  · intro va v va' l t hva h hl2 h'
    exact hW.frame_not_table va v va' l t hva (hl va ▸ h) hl2 (ht va' l ▸ h')
  · intro va v hva h hm
    rcases List.mem_cons.mp hm with he | hm
    · exact hfr va v hva (hl va ▸ h) he
    · exact hW.frame_not_free va v hva (hl va ▸ h) hm
  · intro va va' v v' hva hva' h h'
    exact hW.frame_inj va va' v v' hva hva' (hl va ▸ h) (hl va' ▸ h')

/-- `kalloc` and `memset(mem, 0, PGSIZE)`: the first free page, zeroed, leaves the free list
and belongs to the caller; the tables and translations stay, and so does the well-formedness. -/
theorem Wf.take_zeroed (hW : Wf m pt) {q : Nat} {rest : List Nat} (hfree : m.free = q :: rest) :
    Wf (({ m with free := rest }.memset q 5 PGSIZE).memset q 0 PGSIZE) pt ∧
      (∀ va l, (({ m with free := rest }.memset q 5 PGSIZE).memset q 0 PGSIZE).table pt va l =
        m.table pt va l) ∧
      (∀ va, (({ m with free := rest }.memset q 5 PGSIZE).memset q 0 PGSIZE).leaf pt va =
        m.leaf pt va) ∧
      (∀ i, q ≤ i → i < q + PGSIZE →
        (({ m with free := rest }.memset q 5 PGSIZE).memset q 0 PGSIZE).mem i = 0) ∧
      (∀ i, ¬ (q ≤ i ∧ i < q + PGSIZE) →
        (({ m with free := rest }.memset q 5 PGSIZE).memset q 0 PGSIZE).mem i = m.mem i) := by
  have hq : q ∈ m.free := hfree ▸ List.mem_cons_self
  have hal := hW.tree.free_aligned q hq
  have hnt : ∀ va l t, l ≤ 2 → m.table pt va l = some t → t ≠ q :=
    fun va l t _ ht he => hW.tree.not_free va l t ht (he ▸ hq)
  have hmem : ∀ i, ¬ (q ≤ i ∧ i < q + PGSIZE) →
      (({ m with free := rest }.memset q 5 PGSIZE).memset q 0 PGSIZE).mem i = m.mem i := by
    intro i hi
    rw [Machine.mem_memset_of_apart (by omega), Machine.mem_memset_of_apart (by omega)]
  obtain ⟨hW₂, ht₂, hl₂⟩ := (hW.pop hfree).of_page_write hal hnt hmem rfl rfl
  refine ⟨hW₂, ht₂, hl₂, fun i h1 h2 => ?_, hmem⟩
  exact copyBytes_of_mem _ (fun _ => 0) h1 h2

/-! ## What a process sees -/

/-- The byte a load of `va` by process `p` reads, as `copyin` finds it: the byte of a user page,
`0` on a page below `sz` that has no translation yet (which `vmfault` fills with zeros), and
nothing elsewhere. -/
def Machine.view (m : Machine) (p : Proc) (va : Nat) : Option UInt8 :=
  match m.leaf p.pagetable va with
  | some v => if v &&& PTE_U ≠ 0 then some (m.mem (PTE2PA v + va % PGSIZE)) else none
  | none => if PGROUNDDOWN va < p.sz then some 0 else none

/-- Two machines with the same translation of `va` and the same byte behind it show the same. -/
theorem view_congr {m m' : Machine} {p : Proc} {va : Nat}
    (hl : m'.leaf p.pagetable va = m.leaf p.pagetable va)
    (hb : ∀ v, m.leaf p.pagetable va = some v →
      m'.mem (PTE2PA v + va % PGSIZE) = m.mem (PTE2PA v + va % PGSIZE)) :
    m'.view p va = m.view p va := by
  unfold Machine.view
  rw [hl]
  cases h : m.leaf p.pagetable va with
  | none => rfl
  | some v => simp only [hb v h]

/-- On a user page the view is the frame's byte. -/
theorem view_of_user {m : Machine} {p : Proc} {va v : Nat} (hl : m.leaf p.pagetable va = some v)
    (hU : v &&& PTE_U ≠ 0) : m.view p va = some (m.mem (PTE2PA v + va % PGSIZE)) := by
  unfold Machine.view
  rw [hl]
  exact if_pos hU

/-- Growing a well-formed tree writes no frame. -/
theorem Wf.grows_frame {m m' : Machine} {pt va v o : Nat} (hW : Wf m pt) (hg : Grows m m' pt)
    (hva : va < MAXVA) (hl : m.leaf pt va = some v) (ho : o < PGSIZE) :
    m'.mem (PTE2PA v + o) = m.mem (PTE2PA v + o) := by
  obtain ⟨hnt, hnf⟩ := hW.frame_off hva hl (i := PTE2PA v + o) ⟨by omega, by omega⟩
  exact hg.mem _ hnt hnf

/-! ## Looking a page up -/

/-- `walkaddr` is the frame of a user page, and `0` for any other. -/
theorem walkaddr_eq {m : Machine} {pt va : Nat} (hva : va < MAXVA) :
    walkaddr m pt va =
      match m.leaf pt va with
      | some v => if v &&& PTE_U = 0 then 0 else PTE2PA v
      | none => 0 := by
  rw [walkaddr, if_neg (Nat.not_le.mpr hva), walk_false hva]
  unfold Machine.leaf
  cases m.slot pt va with
  | none => rfl
  | some e =>
    by_cases hv : m.pte e &&& PTE_V ≠ 0
    · simp only [Option.bind_some, if_pos hv, if_neg hv]
    · simp only [Option.bind_some, if_neg hv, if_pos (not_not.mp hv)]

/-- `ismapped` tells whether the page has a valid translation. -/
theorem ismapped_eq {m : Machine} {pt va : Nat} (hva : va < MAXVA) :
    ismapped m pt va = .ok (m.leaf pt va).isSome := by
  rw [ismapped, walk_false hva, ok_bind]
  unfold Machine.leaf
  cases m.slot pt va with
  | none => rfl
  | some e =>
    by_cases hv : m.pte e &&& PTE_V ≠ 0
    · simp only [Option.bind_some, if_pos hv]
      rfl
    · simp only [Option.bind_some, if_neg hv]
      rfl

end Wf

/-! ## Writing a frame -/

/-- A write of `n` bytes at offset `off` of the frame of the user page `va0` keeps the memory
well formed and every translation, and changes the view at those bytes of `va0`'s page only:
no other page shares the frame. -/
theorem view_write_frame {p : Proc} {m : Machine} {va0 v off n : Nat} (src : Nat → UInt8)
    (hW : Wf m p.pagetable) (hva0 : va0 < MAXVA) (hal : va0 % PGSIZE = 0)
    (hl : m.leaf p.pagetable va0 = some v) (hU : v &&& PTE_U ≠ 0) (hn : off + n ≤ PGSIZE) :
    Wf { m with mem := copyBytes m.mem (PTE2PA v + off) src n } p.pagetable ∧
      (∀ a, ({ m with mem := copyBytes m.mem (PTE2PA v + off) src n } : Machine).leaf
        p.pagetable a = m.leaf p.pagetable a) ∧
      ∀ a, a < MAXVA → ({ m with mem := copyBytes m.mem (PTE2PA v + off) src n } : Machine).view
        p a = if va0 + off ≤ a ∧ a < va0 + off + n then some (src (a - (va0 + off)))
          else m.view p a := by
  have hfal := PTE2PA_aligned v
  -- every byte the write touches lies in the frame's page
  have hout : ∀ i, ¬ (PTE2PA v ≤ i ∧ i < PTE2PA v + PGSIZE) →
      ({ m with mem := copyBytes m.mem (PTE2PA v + off) src n } : Machine).mem i = m.mem i := by
    intro i hi
    by_cases hlo : i < PTE2PA v + off
    · exact copyBytes_of_lt m.mem src n hlo
    · exact copyBytes_of_ge m.mem src (by omega)
  obtain ⟨hW', -, hl'⟩ := hW.of_page_write hfal (fun va l t hl2 ht => (hW.frame_not_table va0 v va l t hva0 hl hl2 ht).symm) hout rfl rfl
  refine ⟨hW', hl', fun a ha => ?_⟩
  have hmo : a % PGSIZE < PGSIZE := Nat.mod_lt a (by decide)
  by_cases hp : a / PGSIZE = va0 / PGSIZE
  · -- on `va0`'s page: the frame's byte at the same offset
    have hla : m.leaf p.pagetable a = some v := (Machine.leaf_of_page hp).trans hl
    have hoff : a % PGSIZE = a - va0 := by
      unfold PGSIZE at hal hp hmo ⊢
      omega
    have hle : va0 ≤ a := by
      unfold PGSIZE at hal hp
      omega
    unfold Machine.view
    rw [hl' a, hla]
    dsimp only
    rw [if_pos hU, if_pos hU, hoff]
    rw [hoff] at hmo
    by_cases hin : va0 + off ≤ a ∧ a < va0 + off + n
    · rw [if_pos hin, copyBytes_of_mem m.mem src (by omega) (by omega)]
      congr 2
      omega
    · rw [if_neg hin]
      by_cases hlo : a - va0 < off
      · rw [copyBytes_of_lt m.mem src n (by omega)]
      · rw [copyBytes_of_ge m.mem src (by omega)]
  · -- on another page: the write is not there, and the page's frame is another
    have hnin : ¬ (va0 + off ≤ a ∧ a < va0 + off + n) := by
      rintro ⟨h1, h2⟩
      apply hp
      unfold PGSIZE at hal hn ⊢
      omega
    rw [if_neg hnin]
    apply view_congr (hl' a)
    intro w hw
    have hne : PTE2PA w ≠ PTE2PA v := fun he => hp (hW.frame_inj a va0 w v ha hva0 hw hl he)
    apply hout
    exact pages_apart (PTE2PA_aligned w) hfal hne ⟨by omega, by omega⟩

/-! ## Filling a lazy page -/

/-- An entry made by `mappages` carries every flag of `perm`. -/
theorem leafPte_and_flag {pa perm k : Nat} (h : perm.testBit k = true) :
    leafPte pa perm &&& 2 ^ k ≠ 0 := by
  rw [leafPte, and_flag_ne_zero_iff, Nat.testBit_or, Nat.testBit_or, h]
  simp

/-- The permissions `vmfault` maps a page with. -/
theorem fault_perm_lt : PTE_W ||| PTE_U ||| PTE_R < 2 ^ 10 := by decide

/-- `kalloc`, a write to the page taken and `mappages` of one page with no translation to it, on
well-formed memory. The head `q` of the free list is taken and `m₂` is `m` with the rest of the
list and new bytes in `q` only; the walk grows the tree from `m₂`, keeps every table and makes the
other pages it takes tables, and no byte of a frame changes. Then either `q` is mapped at `va` with
`perm`, the memory well formed, no other translation changed and `q`'s bytes as in `m₂`, or
`mappages` ran out of pages (fewer than three were free), changing no translation, and `kfree(q)`
gives `q` back, keeping the memory well formed. -/
theorem Wf.take_map {m : Machine} {pt : Nat} (hW : Wf m pt) {q : Nat} {rest : List Nat}
    (hfree : m.free = q :: rest) {m₂ : Machine} (hf₂ : m₂.free = rest) (hk₂ : m₂.kend = m.kend)
    (hmem₂ : ∀ i, ¬ (q ≤ i ∧ i < q + PGSIZE) → m₂.mem i = m.mem i) {va perm : Nat}
    (hal : va % PGSIZE = 0) (hlt : va < MAXVA) (hperm : perm < 2 ^ 10) (hnone : m.leaf pt va = none) :
    ∃ r m₃, mappages m₂ pt va PGSIZE q perm = .ok (r, m₃) ∧ Grows m₂ m₃ pt ∧
      m.free.length ≤ m₃.free.length + 3 ∧ FramesKept m m₃ pt ∧ (∀ q' ∈ m₃.free, q' ∈ rest) ∧
      (∀ va' l t, m.table pt va' l = some t → m₃.table pt va' l = some t) ∧
      (∀ q' ∈ m.free, q' = q ∨ q' ∈ m₃.free ∨ ∃ va' l, l ≤ 2 ∧ m₃.table pt va' l = some q') ∧
      ((r = 0 ∧ Wf m₃ pt ∧ m₃.leaf pt va = some (leafPte q perm) ∧ PTE2PA (leafPte q perm) = q ∧
          (∀ a, a < MAXVA → a / PGSIZE ≠ va / PGSIZE → m₃.leaf pt a = m.leaf pt a) ∧
          ∀ o, o < PGSIZE → m₃.mem (q + o) = m₂.mem (q + o)) ∨
        (r = -1 ∧ m.free.length ≤ 2 ∧
          -- `Vm.kfree`: inside `Wf.take_map` a bare `kfree` names `Wf.kfree`
          Vm.kfree m₃ q = .ok { m₃.memset q 1 PGSIZE with free := q :: m₃.free } ∧
          Wf { m₃.memset q 1 PGSIZE with free := q :: m₃.free } pt ∧
          (∀ va' l, ({ m₃.memset q 1 PGSIZE with free := q :: m₃.free } : Machine).table pt va' l =
            m₃.table pt va' l) ∧
          (∀ a, ({ m₃.memset q 1 PGSIZE with free := q :: m₃.free } : Machine).leaf pt a =
            m.leaf pt a) ∧
          FramesKept m { m₃.memset q 1 PGSIZE with free := q :: m₃.free } pt)) := by
  have hqm : q ∈ m.free := hfree ▸ List.mem_cons_self
  have hqal := hW.tree.free_aligned q hqm
  have hq64 : q < 2 ^ 64 := hW.tree.fresh_lt hfree
  have hqrest : q ∉ rest := (List.nodup_cons.mp (hfree ▸ hW.tree.free_nodup)).1
  have hnt : ∀ va' l t, l ≤ 2 → m.table pt va' l = some t → t ≠ q :=
    fun va' l t _ ht he => hW.tree.not_free va' l t ht (he ▸ hqm)
  obtain ⟨hW₂, ht₂', hl₂'⟩ := (hW.pop hfree).of_page_write hqal hnt hmem₂ hf₂ hk₂
  have ht₂ : ∀ va l, m₂.table pt va l = m.table pt va l := ht₂'
  have hl₂ : ∀ va, m₂.leaf pt va = m.leaf pt va := hl₂'
  -- the taken page is none of `m₂`'s tables, frames or free pages
  have hnt₂ : ∀ va' l t, l ≤ 2 → m₂.table pt va' l = some t → t ≠ q :=
    fun va' l t hl ht => hnt va' l t hl (ht₂ va' l ▸ ht)
  have hfr₂ : ∀ a v', a < MAXVA → m₂.leaf pt a = some v' → PTE2PA v' ≠ q :=
    fun a v' ha h he => hW.frame_not_free a v' ha (hl₂ a ▸ h) (he ▸ hqm)
  have hoff₂ : ∀ i, q ≤ i → i < q + PGSIZE → (∀ l ≤ 2, ¬ m₂.InTable pt l i) ∧ ¬ m₂.InFree i := by
    intro i h1 h2
    constructor
    · rintro l hl ⟨va', t, ht, hin⟩
      exact pages_apart (hW₂.tree.aligned va' l t ht) hqal (hnt₂ va' l t hl ht) hin ⟨h1, h2⟩
    · rintro ⟨q', hq', hin⟩
      have hne : q' ≠ q := fun he => hqrest (he ▸ hf₂ ▸ hq')
      exact pages_apart (hW₂.tree.free_aligned q' hq') hqal hne hin ⟨h1, h2⟩
  -- the frames of `m` lie apart from `q`
  have hapart : ∀ a v o, a < MAXVA → m.leaf pt a = some v → o < PGSIZE →
      ¬ (q ≤ PTE2PA v + o ∧ PTE2PA v + o < q + PGSIZE) := by
    intro a v o ha h ho
    have hne : PTE2PA v ≠ q := fun he => hW.frame_not_free a v ha h (he ▸ hqm)
    exact pages_apart (PTE2PA_aligned v) hqal hne ⟨by omega, by omega⟩
  obtain ⟨r, m₃, hmap, hT₃, hg₃, hc₃, hres⟩ :=
    mappages_page hW₂.tree hal hlt hq64 hperm (by rw [hl₂ va, hnone])
  have htf₃ := mappages_page_tablesFrom hW₂.tree hal hlt hmap
  rw [hf₂] at hc₃
  have hframe₃ : FramesKept m m₃ pt := fun a v o ha h ho =>
    (hW₂.grows_frame hg₃ ha ((hl₂ a).trans h) ho).trans (hmem₂ _ (hapart a v o ha h ho))
  have htaken : ∀ q' ∈ m.free, q' = q ∨ q' ∈ m₃.free ∨ ∃ va' l, l ≤ 2 ∧ m₃.table pt va' l = some q' := by
    intro q' hq'
    rw [hfree] at hq'
    rcases List.mem_cons.mp hq' with rfl | hq'
    · exact .inl rfl
    · exact .inr (htf₃.taken q' (hf₂ ▸ hq'))
  refine ⟨r, m₃, hmap, hg₃, by rw [hfree, List.length_cons]; omega, hframe₃,
    fun q' hq' => hf₂ ▸ hg₃.free.subset hq', fun va' l t h => htf₃.kept va' l t ((ht₂ va' l).trans h),
    htaken, ?_⟩
  rcases hres with ⟨rfl, hself, hother⟩ | ⟨rfl, hsmall, hsame⟩
  · -- mapped: `va` translates to `q`, whose bytes are those of `m₂`
    have hpa : PTE2PA (leafPte q perm) = q := PTE2PA_leafPte hqal hq64 hperm
    have hW₃ : Wf m₃ pt := by
      apply hW₂.map_page hg₃ hT₃ hself hother <;> rw [hpa]
      · exact hk₂ ▸ hW.free_ge q hqm
      · exact hW.tree.free_lt q hqm
      · exact hf₂ ▸ hqrest
      · exact hnt₂
      · exact hfr₂
    refine .inl ⟨rfl, hW₃, hself, hpa, fun a ha hne => (hother a ha hne).trans (hl₂ a),
      fun o ho => ?_⟩
    obtain ⟨hnt', hnf⟩ := hoff₂ (q + o) (by omega) (by omega)
    exact hg₃.mem _ hnt' hnf
  · -- `mappages` ran out of pages: `q` goes back, and nothing is mapped
    have hW₃ : Wf m₃ pt := hW₂.of_grows hg₃ hT₃ fun a v _ h => hsame a ▸ h
    have hnf₃ : q ∉ m₃.free := fun h => hqrest (hf₂ ▸ hg₃.free.subset h)
    have hnt₃ : ∀ va' l t, l ≤ 2 → m₃.table pt va' l = some t → t ≠ q := by
      intro va' l t hl ht
      rcases hg₃.table va' l t ht with ht | ht
      · exact hnt₂ va' l t hl ht
      · exact fun he => hqrest (he ▸ hf₂ ▸ ht)
    have hfr₃ : ∀ a v', a < MAXVA → m₃.leaf pt a = some v' → PTE2PA v' ≠ q :=
      fun a v' ha h => hfr₂ a v' ha (hsame a ▸ h)
    have hge : m₃.kend ≤ q := hg₃.kend ▸ hk₂ ▸ hW.free_ge q hqm
    have hlt₃ := hW.tree.free_lt q hqm
    obtain ⟨hW₄, ht₄, hl₄⟩ := hW₃.kfree hqal hge hlt₃ hnf₃ hnt₃ hfr₃
    refine .inr ⟨rfl, by rw [hfree, List.length_cons]; rw [hf₂] at hsmall; omega,
      kfree_ok hqal hge hlt₃, hW₄, ht₄, fun a => ((hl₄ a).trans (hsame a)).trans (hl₂ a),
      fun a v o ha h ho => ?_⟩
    show (m₃.memset q 1 PGSIZE).mem _ = _
    have := hapart a v o ha h ho
    rw [Machine.mem_memset_of_apart (by omega), hframe₃ a v o ha h ho]

/-- `kalloc`, `memset(mem, 0, PGSIZE)` and `mappages` of one page with no translation to the
page taken, as `vmfault` and `uvmalloc` do it on well-formed memory: `Wf.take_map` with the page
zeroed, so that when it is mapped it holds zeros. -/
theorem Wf.alloc_map {m : Machine} {pt : Nat} (hW : Wf m pt) {q : Nat} {rest : List Nat}
    (hfree : m.free = q :: rest) {va perm : Nat} (hal : va % PGSIZE = 0) (hlt : va < MAXVA)
    (hperm : perm < 2 ^ 10) (hnone : m.leaf pt va = none) :
    ∃ r m₃, mappages (({ m with free := rest }.memset q 5 PGSIZE).memset q 0 PGSIZE) pt va PGSIZE
        q perm = .ok (r, m₃) ∧
      m.free.length ≤ m₃.free.length + 3 ∧ FramesKept m m₃ pt ∧ (∀ q' ∈ m₃.free, q' ∈ rest) ∧
      (∀ va' l t, m.table pt va' l = some t → m₃.table pt va' l = some t) ∧
      (∀ q' ∈ m.free, q' = q ∨ q' ∈ m₃.free ∨ ∃ va' l, l ≤ 2 ∧ m₃.table pt va' l = some q') ∧
      ((r = 0 ∧ Wf m₃ pt ∧ m₃.leaf pt va = some (leafPte q perm) ∧ PTE2PA (leafPte q perm) = q ∧
          (∀ a, a < MAXVA → a / PGSIZE ≠ va / PGSIZE → m₃.leaf pt a = m.leaf pt a) ∧
          ∀ o, o < PGSIZE → m₃.mem (q + o) = 0) ∨
        (r = -1 ∧ m.free.length ≤ 2 ∧
          Vm.kfree m₃ q = .ok { m₃.memset q 1 PGSIZE with free := q :: m₃.free } ∧
          Wf { m₃.memset q 1 PGSIZE with free := q :: m₃.free } pt ∧
          (∀ va' l, ({ m₃.memset q 1 PGSIZE with free := q :: m₃.free } : Machine).table pt va' l =
            m₃.table pt va' l) ∧
          (∀ a, ({ m₃.memset q 1 PGSIZE with free := q :: m₃.free } : Machine).leaf pt a =
            m.leaf pt a) ∧
          FramesKept m { m₃.memset q 1 PGSIZE with free := q :: m₃.free } pt)) := by
  obtain ⟨-, -, -, hzero, hmem₂⟩ := hW.take_zeroed hfree
  obtain ⟨r, m₃, hmap, -, hc, hframe, hsub, hkept, htaken, hres⟩ :=
    @Wf.take_map m pt hW q rest hfree (({ m with free := rest }.memset q 5 PGSIZE).memset q 0 PGSIZE)
      rfl rfl hmem₂ va perm hal hlt hperm hnone
  refine ⟨r, m₃, hmap, hc, hframe, hsub, hkept, htaken, ?_⟩
  rcases hres with ⟨rfl, hW₃, hself, hpa, hother, hbytes⟩ | hfail
  · -- the page was zeroed before it was mapped
    exact .inl ⟨rfl, hW₃, hself, hpa, hother,
      fun o ho => (hbytes o ho).trans (hzero _ (by omega) (by omega))⟩
  · exact .inr hfail

/-- `vmfault` on a page of process `p` below `sz` with no translation, on well-formed memory: it
does not panic, keeps the memory well formed and what the process sees, and takes at most three
free pages. When it returns a page, that page now translates the address, readable, writable and
user, and no other translation changed; when it returns `0`, fewer than three pages were free
and no translation changed. -/
theorem vmfault_lazy {p : Proc} {m : Machine} {va : Nat} (hW : Wf m p.pagetable)
    (hsz : p.sz ≤ MAXVA) (hal : va % PGSIZE = 0) (hva : va < p.sz)
    (hnone : m.leaf p.pagetable va = none) :
    ∃ pa m', vmfault p m p.pagetable va = .ok (pa, m') ∧ Wf m' p.pagetable ∧
      (∀ a, a < MAXVA → m'.view p a = m.view p a) ∧ m.free.length ≤ m'.free.length + 3 ∧
      (pa = 0 → m.free.length ≤ 2 ∧
        ∀ a, a < MAXVA → m'.leaf p.pagetable a = m.leaf p.pagetable a) ∧
      (pa ≠ 0 → ∃ v, m'.leaf p.pagetable va = some v ∧ PTE2PA v = pa ∧ v &&& PTE_U ≠ 0 ∧
        v &&& PTE_W ≠ 0 ∧ ∀ a, a < MAXVA → a / PGSIZE ≠ va / PGSIZE →
          m'.leaf p.pagetable a = m.leaf p.pagetable a) := by
  have hlt : va < MAXVA := by omega
  have hdown : PGROUNDDOWN va = va := by
    unfold PGROUNDDOWN
    unfold PGSIZE at hal ⊢
    omega
  rw [vmfault, if_neg (by omega)]
  simp only [hdown, ismapped_eq hlt, hnone, ok_bind, Option.isSome_none, Bool.false_eq_true,
    if_false]
  cases hfree : m.free with
  | nil =>
    -- nothing free: `kalloc` fails and nothing changes
    refine ⟨0, m, ?_, hW, fun _ _ => rfl, by simp,
      fun _ => ⟨by simp, fun _ _ => rfl⟩,
      fun h => absurd rfl h⟩
    simp only [kalloc, hfree]
    rfl
  | cons q rest =>
    simp only [kalloc, hfree]
    have hqm : q ∈ m.free := hfree ▸ List.mem_cons_self
    obtain ⟨r, m₃, hmap, hc, hframe, -, -, -, hres⟩ := hW.alloc_map hfree hal hlt fault_perm_lt hnone
    rw [hmap, ok_bind]
    rcases hres with ⟨rfl, hW₃, hself, hpa, hother, hzero⟩ | ⟨rfl, hsmall, hk, hW₄, -, hl₄, hframe₄⟩
    · -- mapped: the page is `q`, zeroed
      have hU : leafPte q (PTE_W ||| PTE_U ||| PTE_R) &&& PTE_U ≠ 0 :=
        leafPte_and_flag (k := 4) (by decide)
      have hWr : leafPte q (PTE_W ||| PTE_U ||| PTE_R) &&& PTE_W ≠ 0 :=
        leafPte_and_flag (k := 2) (by decide)
      refine ⟨q, m₃, rfl, hW₃, fun a ha => ?_, by rw [hfree] at hc; exact hc,
        fun h => absurd h (by have := hW.free_ge q hqm; have := hW.kend_pos; omega),
        fun _ => ⟨_, hself, hpa, hU, hWr, hother⟩⟩
      by_cases hp : a / PGSIZE = va / PGSIZE
      · -- the filled page shows the zeros it showed before
        have hdn : PGROUNDDOWN a = va := by
          unfold PGROUNDDOWN
          rw [hp]
          unfold PGSIZE at hal ⊢
          omega
        unfold Machine.view
        rw [Machine.leaf_of_page hp, hself, Machine.leaf_of_page hp, hnone]
        dsimp only
        rw [if_pos hU, hpa, hzero _ (Nat.mod_lt a (by decide)), hdn, if_pos hva]
      · exact view_congr (hother a ha hp) fun v h => hframe a v _ ha h (Nat.mod_lt a (by decide))
    · -- `mappages` ran out of pages: `q` went back, and nothing is mapped
      rw [if_pos (show (-1 : Int) ≠ 0 by decide), hk, ok_bind]
      rw [hfree] at hc hsmall
      refine ⟨0, _, rfl, hW₄, fun a ha => ?_, ?_, fun _ => ⟨hsmall, fun a _ => hl₄ a⟩,
        fun h => absurd rfl h⟩
      · exact view_congr (hl₄ a) fun v h => hframe₄ a v _ ha h (Nat.mod_lt a (by decide))
      · simp only [List.length_cons] at hc ⊢
        omega

/-- `vmfault` on a page that is not a lazy page of the process returns `0` and changes nothing. -/
theorem vmfault_not_lazy {p : Proc} {m : Machine} {va : Nat} (hlt : va < MAXVA)
    (hal : va % PGSIZE = 0) (h : ¬ (m.leaf p.pagetable va = none ∧ va < p.sz)) :
    vmfault p m p.pagetable va = .ok (0, m) := by
  have hdown : PGROUNDDOWN va = va := by
    unfold PGROUNDDOWN
    unfold PGSIZE at hal ⊢
    omega
  rw [vmfault]
  by_cases hsz : va ≥ p.sz
  · rw [if_pos hsz]
    rfl
  · -- below `sz`, the page is mapped
    rw [if_neg hsz]
    have hmapped : (m.leaf p.pagetable va).isSome = true := by
      cases hl : m.leaf p.pagetable va with
      | none => exact absurd ⟨hl, by omega⟩ h
      | some v => rfl
    simp only [hdown, ismapped_eq hlt, hmapped, ok_bind, if_true]
    rfl

/-- Memory whose table is an empty root, off a well-formed free list above the kernel, is well
formed: it translates nothing. -/
theorem Wf.of_root_empty {m : Machine} {pt : Nat} (hpt : pt % PGSIZE = 0) (hnf : pt ∉ m.free)
    (hroot : ∀ va, m.next va 2 pt = none) (hfa : ∀ p ∈ m.free, p % PGSIZE = 0)
    (hfl : ∀ p ∈ m.free, p < PHYSTOP) (hnd : m.free.Nodup) (hk : 0 < m.kend)
    (hfk : ∀ q ∈ m.free, m.kend ≤ q) : Wf m pt := by
  have hnone : ∀ va, m.leaf pt va = none := Machine.leaf_of_root_empty hroot
  refine ⟨Tree.of_root_empty hpt hnf hroot hfa hfl hnd, hk, hfk, ?_, ?_, ?_, ?_, ?_⟩ <;>
    simp [hnone]

end Xv6.Vm
