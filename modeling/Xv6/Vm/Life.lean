import Xv6.Vm.Free

/-!
# Xv6.Vm.Life — no page lost over the life of a process

The memory of a process holds pages of three kinds: the pages of the free list, the pages of its
page table, and the frames of its pages below `TRAPFRAME` (`Machine.Owns`; the trapframe's page
is `freeproc`'s to free, the trampoline's the kernel's text). The calls a process makes on its
memory move pages from one kind to another and never lose or make up one: `walk` turns free pages
into tables, `uvmalloc` and `vmfault` turn them into frames, `uvmdealloc` gives frames back, and
every failure path gives back the page it took (`Conserves`). Every call also keeps the `Shape`
that `freewalk` needs.

So from a process image of this shape, after any run of `sys_sbrk` calls and page faults,
`proc_freepagetable` does not panic, and the free list then holds, each once, exactly the pages
the process held at the start (`memRun_freepagetable`).
-/

namespace Xv6.Vm

open Xv6.Lib

/-! ## The pages a process holds -/

/-- `m'` holds the same pages as `m`. -/
def Conserves (m m' : Machine) (pt : Nat) : Prop := ∀ q, m'.Owns pt q ↔ m.Owns pt q

theorem Conserves.refl (m : Machine) (pt : Nat) : Conserves m m pt := fun _ => Iff.rfl

theorem Conserves.trans {m m₁ m₂ : Machine} {pt : Nat} (h₁ : Conserves m m₁ pt)
    (h₂ : Conserves m₁ m₂ pt) : Conserves m m₂ pt := fun q => (h₂ q).trans (h₁ q)

/-! ## The shape along `walk` and `mappages` -/

section Shape

variable {m m' : Machine} {pt va l t p : Nat} {rest : List Nat}

/-- The entry `walk` stores for a new table carries none of `R`, `W`, `X`. -/
theorem tablePte_rwx (p : Nat) : (PA2PTE p ||| PTE_V) &&& (PTE_R ||| PTE_W ||| PTE_X) = 0 := by
  have hmask : PTE_R ||| PTE_W ||| PTE_X = 0x3FF &&& (PTE_R ||| PTE_W ||| PTE_X) := by decide
  rw [hmask, ← Nat.and_assoc, tablePte_eq]
  show PTE_FLAGS (leafPte p 0) &&& _ = 0
  rw [PTE_FLAGS_leafPte p (by decide)]
  decide

/-- An address from `MAXVA` up to `2 * MAXVA` has a root index no address below `MAXVA` has. -/
theorem PX_two_ne_of_MAXVA {va va' : Nat} (hva : va < MAXVA) (h1 : MAXVA ≤ va')
    (h2 : va' < 2 * MAXVA) : PX 2 va' ≠ PX 2 va := by
  rw [PX_eq, PX_eq]
  unfold MAXVA at *
  norm_num
  omega

/-- A `walk` that did not panic was below `MAXVA`. -/
theorem walk_lt_MAXVA {alloc : Bool} {r : Option Nat × Machine} (h : walk m pt va alloc = .ok r) :
    va < MAXVA := by
  by_contra hva
  rw [walk, if_pos (Nat.le_of_not_lt hva)] at h
  cases h

/-- The free pages stay above the kernel as the tree grows. -/
theorem Grows.free_ge (hg : Grows m m' pt) (h : ∀ q ∈ m.free, m.kend ≤ q) :
    ∀ q ∈ m'.free, m'.kend ≤ q := fun q hq => hg.kend ▸ h q (hg.free.subset hq)

/-- A write confined to a page that is no table keeps the shape, with the tables and `end`. -/
theorem Shape.of_page_write (hS : Shape m pt) (hT : Tree m pt) {q : Nat} (hal : q % PGSIZE = 0)
    (hnt : ∀ va l t, l ≤ 2 → m.table pt va l = some t → t ≠ q)
    (ht : ∀ va l, m'.table pt va l = m.table pt va l) (hk : m'.kend = m.kend)
    (hmem : ∀ i, ¬ (q ≤ i ∧ i < q + PGSIZE) → m'.mem i = m.mem i) : Shape m' pt := by
  refine hS.of_tables ht hk fun i hi => hmem i ?_
  rcases hi with ⟨va, t, h, h1, h2⟩ | ⟨va, t, h, h1, h2⟩
  · exact pages_apart (hT.aligned va 1 t h) hal (hnt va 1 t (by omega) h) ⟨h1, h2⟩
  · exact pages_apart (hT.aligned va 2 t h) hal (hnt va 2 t le_rfl h) ⟨h1, h2⟩

/-- Filling an invalid entry below `MAXVA` with a free page above the kernel keeps the shape: the
filled entry leads to a table and carries none of `R`, `W`, `X`, the new table is empty, and a
root entry past `MAXVA` is not the one filled. -/
theorem Shape.attach (hS : Shape m pt) (hT : Tree m pt) (hl : l = 1 ∨ l = 2)
    (ht : m.table pt va l = some t) (hva : va < MAXVA) (hfree : m.free = p :: rest)
    (hge : m.kend ≤ p) : Shape (attach m (t + 8 * PX l va) p rest) pt where
  inner va' k t' hk h hv := by
    have he := hT.entry_off_fresh hfree ht
    rcases attach_table_cases hT hl ht hfree h with ⟨rfl, -⟩ | h
    · -- an entry of the new table is `0`
      have hpg := entry_mem_page t' k va'
      rw [attach_pte_page he hpg.1 hpg.2] at hv
      exact absurd (Nat.zero_and PTE_V) hv
    · by_cases hs : t' + 8 * PX k va' = t + 8 * PX l va
      · -- the filled entry
        rw [hs, attach_pte_self (hT.fresh_lt hfree)]
        exact tablePte_rwx p
      · -- any other entry of a table of before reads as before
        have happ : t' + 8 * PX k va' + 8 ≤ t + 8 * PX l va ∨
            t + 8 * PX l va + 8 ≤ t' + 8 * PX k va' := by
          apply hT.entries_apart h ht
          by_contra hsame
          rw [not_or, not_not, not_not] at hsame
          exact hs (by rw [hsame.1, hsame.2])
        rw [attach_pte_of_apart happ (hT.entry_off_fresh hfree h)] at hv ⊢
        exact hS.inner va' k t' hk h hv
  upper va' h1 h2 := by
    rw [Option.eq_none_iff_forall_ne_some]
    intro t' h
    rcases attach_table_cases hT hl ht hfree h with ⟨-, hkl, -, hx⟩ | h
    · -- only a fill at level 2 is a root entry, and `va`'s index there is below `MAXVA`'s
      obtain rfl : l = 2 := by omega
      exact PX_two_ne_of_MAXVA hva h1 h2 hx
    · rw [hS.upper va' h1 h2] at h
      cases h
  placed va' k t' hk h := by
    rcases attach_table_cases hT hl ht hfree h with ⟨rfl, -⟩ | h
    · exact ⟨hge, hT.free_lt t' (hfree ▸ List.mem_cons_self)⟩
    · exact hS.placed va' k t' hk h

theorem Shape.walkLevel {r : Option Nat} (hS : Shape m pt) (hT : Tree m pt) (hl : l = 1 ∨ l = 2)
    (ht : m.table pt va l = some t) (hva : va < MAXVA) (hge : ∀ q ∈ m.free, m.kend ≤ q)
    (h : walkLevel true va l t m = (r, m')) : Shape m' pt := by
  by_cases hv : m.pte (t + 8 * PX l va) &&& PTE_V ≠ 0
  · rw [walkLevel_valid hv, Prod.mk.injEq] at h
    rw [← h.2]
    exact hS
  · cases hfree : m.free with
    | nil =>
      rw [walkLevel_empty hv hfree, Prod.mk.injEq] at h
      rw [← h.2]
      exact hS
    | cons q rest =>
      rw [walkLevel_attach hv hfree, Prod.mk.injEq] at h
      rw [← h.2]
      exact hS.attach hT hl ht hva hfree (hge q (hfree ▸ List.mem_cons_self))

/-- An allocating walk keeps the shape. -/
theorem Shape.walk {r : Option Nat} (hS : Shape m pt) (hT : Tree m pt)
    (hge : ∀ q ∈ m.free, m.kend ≤ q) (h : walk m pt va true = .ok (r, m')) : Shape m' pt := by
  have hva := walk_lt_MAXVA h
  rw [Vm.walk, if_neg (Nat.not_le.mpr hva)] at h
  -- level 2, from the root
  rcases hw₁ : Vm.walkLevel true va 2 pt m with ⟨r₁, m₁⟩
  have hS₁ := hS.walkLevel hT (.inr rfl) (m.table_two pt va) hva hge hw₁
  obtain ⟨hT₁, -, hr₁, -⟩ := walkLevel_spec hT (.inr rfl) (m.table_two pt va) hw₁
  have hge₁ := (walkLevel_grows hT (.inr rfl) (m.table_two pt va) hw₁).free_ge hge
  rw [hw₁] at h
  cases r₁ with
  | none =>
    obtain ⟨-, rfl⟩ : none = r ∧ m₁ = m' := by simpa using h
    exact hS₁
  | some t₁ =>
    -- level 1, from the table level 2 led to
    rcases hw₂ : Vm.walkLevel true va 1 t₁ m₁ with ⟨r₂, m₂⟩
    have hS₂ := hS₁.walkLevel hT₁ (.inl rfl) hr₁.symm hva hge₁ hw₂
    simp only [hw₂] at h
    cases r₂ <;> obtain ⟨-, rfl⟩ := (by simpa using h : _ = r ∧ m₂ = m')
    · exact hS₂
    · exact hS₂

/-- A store to a leaf entry keeps the shape. -/
theorem Shape.setPte_slot (hS : Shape m pt) (hT : Tree m pt) {a e : Nat}
    (hs : m.slot pt a = some e) (v : Nat) : Shape (m.setPte e v) pt :=
  hS.of_tables (table_setPte_slot hT hs v) rfl fun _ hi =>
    Machine.mem_setPte_of_apart (hT.slot_off_upper hs hi)

/-- `mappages` of one page keeps the shape: its walk does, and its store is to a leaf entry. -/
theorem Shape.mappages_page {r : Int} {pa perm : Nat} (hS : Shape m pt) (hT : Tree m pt)
    (hge : ∀ q ∈ m.free, m.kend ≤ q) (h : mappages m pt va PGSIZE pa perm = .ok (r, m')) :
    Shape m' pt := by
  have hva : va % PGSIZE = 0 := by
    by_contra hva
    rw [mappages, if_pos hva] at h
    cases h
  have hloop : mappages m pt va PGSIZE pa perm = mappagesLoop pt perm 0 va pa m := by
    rw [mappages, if_neg (not_not.mpr hva), if_neg (by decide), if_neg (by decide)]
    rfl
  rw [hloop, mappagesLoop] at h
  obtain ⟨⟨r₁, m₁⟩, hw, h⟩ := bind_eq_ok h
  have hS₁ := hS.walk hT hge hw
  obtain ⟨hT₁, -, hs₁, -⟩ := walk_alloc_spec hT (walk_lt_MAXVA hw) hw
  cases r₁ with
  | none =>
    cases h
    exact hS₁
  | some e =>
    dsimp only at h
    -- a valid entry panics, so the entry was stored
    split_ifs at h
    cases h
    exact hS₁.setPte_slot hT₁ hs₁.symm _

end Shape

/-! ## The pages each call moves -/

section Moves

variable {m m' : Machine} {pt : Nat}

/-- A run of `uvmunmap` with `do_free` below `TRAPFRAME` holds the same pages: the frames of the
range are free after, and a page free after was free or a frame of the range. -/
theorem uvmunmapLoop_conserves {npages a : Nat} (hW : Wf m pt) (hal : a % PGSIZE = 0)
    (hend : a + npages * PGSIZE ≤ TRAPFRAME) (h : uvmunmapLoop pt true npages a m = .ok m') :
    Conserves m m' pt := by
  obtain ⟨m₁, hrun, -, hnone, hsame, hfreed, hkeep, ht, -, -, hback, -⟩ :=
    uvmunmapLoop_free npages a m hW hal (hend.trans TRAPFRAME_le_TRAMPOLINE)
  rw [hrun] at h
  obtain rfl := Except.ok.inj h
  have hTM := TRAPFRAME_le_MAXVA
  intro q
  constructor
  · rintro (hq | ⟨va, l, hl, h⟩ | ⟨b, v, hb, h, rfl⟩)
    · rcases hback q hq with hq | ⟨b, v, -, hb, h, rfl⟩
      · exact .inl hq
      · exact .inr (.inr ⟨b, v, by omega, h, rfl⟩)
    · exact .inr (.inl ⟨va, l, hl, (ht va l) ▸ h⟩)
    · -- a translation after lies off the range, where it was before
      by_cases hin : a ≤ b ∧ b < a + npages * PGSIZE
      · rw [hnone b hin.1 hin.2] at h
        cases h
      · exact .inr (.inr ⟨b, v, hb, (hsame b (by omega) (by omega)) ▸ h, rfl⟩)
  · rintro (hq | ⟨va, l, hl, h⟩ | ⟨b, v, hb, h, rfl⟩)
    · exact .inl (hkeep q hq)
    · exact .inr (.inl ⟨va, l, hl, (ht va l).trans h⟩)
    · by_cases hin : a ≤ b ∧ b < a + npages * PGSIZE
      · exact .inl (hfreed b v hin.1 hin.2 h)
      · exact .inr (.inr ⟨b, v, hb, (hsame b (by omega) (by omega)).trans h, rfl⟩)

/-- `uvmdealloc(pagetable, oldsz, newsz)` for `oldsz ≤ TRAPFRAME` keeps the shape and holds the
same pages. -/
theorem uvmdealloc_conserves {oldsz newsz sz : Nat} (hW : Wf m pt) (hS : Shape m pt)
    (hold : oldsz ≤ TRAPFRAME) (h : uvmdealloc m pt oldsz newsz = .ok (sz, m')) :
    Shape m' pt ∧ Conserves m m' pt := by
  by_cases hge : newsz ≥ oldsz
  · rw [uvmdealloc, if_pos hge] at h
    cases h
    exact ⟨hS, Conserves.refl m pt⟩
  · by_cases hup : PGROUNDUP newsz < PGROUNDUP oldsz
    · -- `uvmunmap` of the pages from `PGROUNDUP(newsz)` up to `PGROUNDUP(oldsz)`
      rw [uvmdealloc, if_neg hge, if_pos hup] at h
      obtain ⟨m₁, hun, h⟩ := bind_eq_ok h
      cases h
      have hal := PGROUNDUP_aligned newsz
      have hal' := PGROUNDUP_aligned oldsz
      have hend : PGROUNDUP newsz + (PGROUNDUP oldsz - PGROUNDUP newsz) / PGSIZE * PGSIZE ≤
          TRAPFRAME := by
        have := PGROUNDUP_le_TRAPFRAME hold
        unfold PGSIZE at hal hal' ⊢
        omega
      rw [uvmunmap, if_neg (not_not.mpr hal)] at hun
      exact ⟨uvmunmapLoop_shape _ _ m _ hW hS hal (hend.trans TRAPFRAME_le_TRAMPOLINE) hun,
        uvmunmapLoop_conserves hW hal hend hun⟩
    · rw [uvmdealloc, if_neg hge, if_neg hup] at h
      cases h
      exact ⟨hS, Conserves.refl m pt⟩

/-- After `kalloc` and the walk of `mappages`, a free page or a table was free or a table
before. -/
theorem owns_of_grows {m₂ m₃ : Machine} {q q' : Nat} {rest : List Nat} (hfree : m.free = q :: rest)
    (hf₂ : m₂.free = rest) (ht₂ : ∀ va l, m₂.table pt va l = m.table pt va l)
    (hg : Grows m₂ m₃ pt) (h : q' ∈ m₃.free ∨ m₃.IsTable pt q') :
    q' ∈ m.free ∨ m.IsTable pt q' := by
  have hrest : ∀ q' ∈ rest, q' ∈ m.free := fun q' hq => hfree ▸ List.mem_cons_of_mem q hq
  rcases h with hq | ⟨va, l, hl, h⟩
  · exact .inl (hrest q' (hf₂ ▸ hg.free.subset hq))
  · rcases hg.table va l q' h with h | h
    · exact .inr ⟨va, l, hl, (ht₂ va l) ▸ h⟩
    · exact .inl (hrest q' (hf₂ ▸ h))

/-- The pages `kalloc` and `mappages` of one page move when the page is mapped: the page taken
is the frame of `va`, below `TRAPFRAME`, and the pages the walk took are tables. -/
theorem conserves_of_map {m₂ m₃ : Machine} {q va v : Nat} {rest : List Nat}
    (hfree : m.free = q :: rest) (hf₂ : m₂.free = rest)
    (ht₂ : ∀ va l, m₂.table pt va l = m.table pt va l) (hg : Grows m₂ m₃ pt)
    (hkept : ∀ va' l t, m.table pt va' l = some t → m₃.table pt va' l = some t)
    (htaken : ∀ q' ∈ m.free, q' = q ∨ q' ∈ m₃.free ∨ m₃.IsTable pt q')
    (hva : va < TRAPFRAME) (hnone : m.leaf pt va = none) (hself : m₃.leaf pt va = some v)
    (hpa : PTE2PA v = q)
    (hother : ∀ a, a < MAXVA → a / PGSIZE ≠ va / PGSIZE → m₃.leaf pt a = m.leaf pt a) :
    Conserves m m₃ pt := by
  have hTM := TRAPFRAME_le_MAXVA
  intro q'
  constructor
  · rintro (hq | hq | ⟨va', v', hva', h, rfl⟩)
    · exact (owns_of_grows hfree hf₂ ht₂ hg (.inl hq)).imp_right .inl
    · exact (owns_of_grows hfree hf₂ ht₂ hg (.inr hq)).imp_right .inl
    · by_cases hp : va' / PGSIZE = va / PGSIZE
      · -- the new frame is the page taken
        rw [Machine.leaf_of_page hp, hself] at h
        rw [← Option.some.inj h, hpa]
        exact .inl (by rw [hfree]; exact List.mem_cons_self)
      · exact .inr (.inr ⟨va', v', hva', (hother va' (by omega) hp) ▸ h, rfl⟩)
  · rintro (hq | ⟨va', l, hl, h⟩ | ⟨va', v', hva', h, rfl⟩)
    · rcases htaken q' hq with rfl | hq | hq
      · exact .inr (.inr ⟨va, v, hva, hself, hpa⟩)
      · exact .inl hq
      · exact .inr (.inl hq)
    · exact .inr (.inl ⟨va', l, hl, hkept va' l q' h⟩)
    · -- a frame of before lies on another page than `va`'s, which had none
      have hp : va' / PGSIZE ≠ va / PGSIZE := by
        intro hp
        rw [Machine.leaf_of_page hp, hnone] at h
        cases h
      exact .inr (.inr ⟨va', v', hva', (hother va' (by omega) hp).trans h, rfl⟩)

/-- The pages `kalloc`, a failed `mappages` of one page and `kfree` move: the page taken is free
again, and the pages the walk took are tables. -/
theorem conserves_of_unmapped {m₂ m₃ m₄ : Machine} {q : Nat} {rest : List Nat}
    (hfree : m.free = q :: rest) (hf₂ : m₂.free = rest)
    (ht₂ : ∀ va l, m₂.table pt va l = m.table pt va l) (hg : Grows m₂ m₃ pt)
    (hkept : ∀ va' l t, m.table pt va' l = some t → m₃.table pt va' l = some t)
    (htaken : ∀ q' ∈ m.free, q' = q ∨ q' ∈ m₃.free ∨ m₃.IsTable pt q')
    (hf₄ : m₄.free = q :: m₃.free) (ht₄ : ∀ va l, m₄.table pt va l = m₃.table pt va l)
    (hl₄ : ∀ a, m₄.leaf pt a = m.leaf pt a) : Conserves m m₄ pt := by
  intro q'
  constructor
  · rintro (hq | ⟨va, l, hl, h⟩ | ⟨va, v, hva, h, rfl⟩)
    · rw [hf₄] at hq
      rcases List.mem_cons.mp hq with rfl | hq
      · exact .inl (by rw [hfree]; exact List.mem_cons_self)
      · exact (owns_of_grows hfree hf₂ ht₂ hg (.inl hq)).imp_right .inl
    · exact (owns_of_grows hfree hf₂ ht₂ hg (.inr ⟨va, l, hl, (ht₄ va l) ▸ h⟩)).imp_right .inl
    · exact .inr (.inr ⟨va, v, hva, (hl₄ va) ▸ h, rfl⟩)
  · rintro (hq | ⟨va, l, hl, h⟩ | ⟨va, v, hva, h, rfl⟩)
    · rcases htaken q' hq with rfl | hq | ⟨va, l, hl, h⟩
      · exact .inl (by rw [hf₄]; exact List.mem_cons_self)
      · exact .inl (by rw [hf₄]; exact List.mem_cons_of_mem _ hq)
      · exact .inr (.inl ⟨va, l, hl, (ht₄ va l).trans h⟩)
    · exact .inr (.inl ⟨va, l, hl, (ht₄ va l).trans (hkept va l q' h)⟩)
    · exact .inr (.inr ⟨va, v, hva, (hl₄ va).trans h, rfl⟩)

/-- `kalloc`, `memset(mem, 0, PGSIZE)` and `mappages` of one page with no translation below
`TRAPFRAME`, and `kfree(mem)` when `mappages` fails, as `vmfault` and `uvmalloc` do them: the
shape is kept and the same pages held, the page taken being the new frame, or free again. -/
theorem Wf.alloc_map_conserves (hW : Wf m pt) (hS : Shape m pt) {q : Nat} {rest : List Nat}
    (hfree : m.free = q :: rest) {va perm : Nat} (hal : va % PGSIZE = 0) (hva : va < TRAPFRAME)
    (hperm : perm < 2 ^ 10) (hnone : m.leaf pt va = none) {r : Int} {m₃ : Machine}
    (hmap : mappages (({ m with free := rest }.memset q 5 PGSIZE).memset q 0 PGSIZE) pt va PGSIZE
      q perm = .ok (r, m₃)) :
    Shape m₃ pt ∧ (r = 0 → Conserves m m₃ pt) ∧
      (r ≠ 0 → Vm.kfree m₃ q = .ok { m₃.memset q 1 PGSIZE with free := q :: m₃.free } ∧
        Shape { m₃.memset q 1 PGSIZE with free := q :: m₃.free } pt ∧
        Conserves m { m₃.memset q 1 PGSIZE with free := q :: m₃.free } pt) := by
  have hTM := TRAPFRAME_le_MAXVA
  obtain ⟨hW₂, ht₂, -, -, hmem₂⟩ := hW.take_zeroed hfree
  obtain ⟨r', m₃', hmap', hg, -, -, -, hkept, htaken, hres⟩ :=
    @Wf.take_map m pt hW q rest hfree (({ m with free := rest }.memset q 5 PGSIZE).memset q 0 PGSIZE)
      rfl rfl hmem₂ va perm hal (by omega) hperm hnone
  rw [hmap] at hmap'
  obtain ⟨rfl, rfl⟩ := Prod.mk.inj (Except.ok.inj hmap')
  -- the zeroed page is no table, so the memory `mappages` starts from has the shape
  have hS₂ : Shape (({ m with free := rest }.memset q 5 PGSIZE).memset q 0 PGSIZE) pt :=
    hS.of_page_write hW.tree (hW.tree.fresh_aligned hfree)
      (fun _ _ _ _ h => hW.tree.ne_fresh hfree h) ht₂ rfl hmem₂
  have hS₃ := hS₂.mappages_page hW₂.tree hW₂.free_ge hmap
  refine ⟨hS₃, fun hr => ?_, fun hr => ?_⟩
  · rcases hres with ⟨-, -, hself, hpa, hother, -⟩ | ⟨rfl, -⟩
    · exact conserves_of_map hfree rfl ht₂ hg hkept htaken hva hnone hself hpa hother
    · exact absurd hr (by decide)
  · rcases hres with ⟨rfl, -⟩ | ⟨-, -, hkf, hW₄, ht₄, hl₄, -⟩
    · exact absurd rfl hr
    · -- `q` is free again after `kfree`: it is no table, and only its bytes changed
      have hT₃ : Tree m₃ pt :=
        hW₄.tree.of_sublist (fun va l => (ht₄ va l).symm) (List.sublist_cons_self q m₃.free)
      have hnt : ∀ va l t, l ≤ 2 → m₃.table pt va l = some t → t ≠ q := fun va l t _ h he =>
        hW₄.tree.not_free va l t ((ht₄ va l).trans h) (he ▸ List.mem_cons_self)
      refine ⟨hkf, hS₃.of_page_write hT₃ (hW.tree.fresh_aligned hfree) hnt ht₄
        (by dsimp only; exact Machine.memset_kend) fun i hi => ?_,
        conserves_of_unmapped hfree rfl ht₂ hg hkept htaken rfl ht₄ hl₄⟩
      show (m₃.memset q 1 PGSIZE).mem i = _
      exact Machine.mem_memset_of_apart (by omega)

/-- A run of `uvmalloc`'s loop from `a` on, over pages with no translation below
`newsz ≤ TRAPFRAME`: it keeps the shape and holds the same pages, whether it maps every page or
gives up and undoes the pages mapped so far. -/
theorem uvmallocLoop_conserves {s newsz xperm : Nat} (hperm : PTE_R ||| PTE_U ||| xperm < 2 ^ 10)
    (hnew : newsz ≤ TRAPFRAME) (d : Nat) :
    ∀ (a : Nat) (m m' : Machine) (r : Nat), newsz - a = d → Wf m pt → Shape m pt →
      a % PGSIZE = 0 → (∀ b, a ≤ b → b < newsz → m.leaf pt b = none) →
      uvmallocLoop pt s newsz xperm a m = .ok (r, m') → Shape m' pt ∧ Conserves m m' pt := by
  -- induction on what is left below `newsz`, one page a turn
  induction d using Nat.strong_induction_on with
  | _ d ih =>
  intro a m m' r hd hW hS hal hnone h
  by_cases hlt : a < newsz
  · have hal' : (a + PGSIZE) % PGSIZE = 0 := by
      unfold PGSIZE at hal ⊢
      omega
    rw [uvmallocLoop, if_pos hlt] at h
    cases hfree : m.free with
    | nil =>
      -- `kalloc` fails: undo the pages mapped so far
      simp only [kalloc, hfree] at h
      obtain ⟨⟨sz, m₁⟩, hd₁, h⟩ := bind_eq_ok h
      cases h
      exact uvmdealloc_conserves hW hS (by omega) hd₁
    | cons q rest =>
      simp only [kalloc, hfree] at h
      obtain ⟨r₃, m₃, hmap, -, -, -, -, -, hres⟩ :=
        hW.alloc_map hfree hal (by have := TRAPFRAME_le_MAXVA; omega) hperm (hnone a le_rfl hlt)
      obtain ⟨hS₃, hmapped, hfailed⟩ :=
        hW.alloc_map_conserves hS hfree hal (by omega) hperm (hnone a le_rfl hlt) hmap
      rw [hmap, ok_bind] at h
      rcases hres with ⟨rfl, hW₃, -, -, hother, -⟩ | ⟨rfl, -, hkf, hW₄, -, -, -⟩
      · -- `a` is mapped: on to the next page, where nothing changed
        dsimp only at h
        rw [if_neg (by decide)] at h
        have hnone₃ : ∀ b, a + PGSIZE ≤ b → b < newsz → m₃.leaf pt b = none := fun b h1 h2 =>
          (hother b (by have := TRAPFRAME_le_MAXVA; omega)
            (page_ne_of_not_mem hal (.inr h1))).trans (hnone b (by omega) h2)
        obtain ⟨hS', hc'⟩ :=
          ih (newsz - (a + PGSIZE)) (by unfold PGSIZE; omega) (a + PGSIZE) m₃ m' r rfl
            hW₃ hS₃ hal' hnone₃ h
        exact ⟨hS', (hmapped rfl).trans hc'⟩
      · -- `mappages` failed: `kfree(mem)`, then undo the pages mapped so far
        obtain ⟨-, hS₄, hc₄⟩ := hfailed (by decide)
        dsimp only at h
        rw [if_pos (by decide), hkf, ok_bind] at h
        obtain ⟨⟨sz, m₅⟩, hd₅, h⟩ := bind_eq_ok h
        cases h
        obtain ⟨hS₅, hc₅⟩ := uvmdealloc_conserves hW₄ hS₄ (by omega) hd₅
        exact ⟨hS₅, hc₄.trans hc₅⟩
  · -- past `newsz`: nothing to map
    rw [uvmallocLoop, if_neg hlt] at h
    cases h
    exact ⟨hS, Conserves.refl m pt⟩

/-- `uvmalloc(pagetable, oldsz, newsz, xperm)` for `newsz ≤ TRAPFRAME`, over pages with no
translation from `PGROUNDUP(oldsz)` below `newsz`, keeps the shape and holds the same pages. -/
theorem uvmalloc_conserves {oldsz newsz xperm r : Nat} (hW : Wf m pt) (hS : Shape m pt)
    (hperm : PTE_R ||| PTE_U ||| xperm < 2 ^ 10) (hnew : newsz ≤ TRAPFRAME)
    (hnone : ∀ b, PGROUNDUP oldsz ≤ b → b < newsz → m.leaf pt b = none)
    (h : uvmalloc m pt oldsz newsz xperm = .ok (r, m')) : Shape m' pt ∧ Conserves m m' pt := by
  by_cases hlt : newsz < oldsz
  · rw [uvmalloc, if_pos hlt] at h
    cases h
    exact ⟨hS, Conserves.refl m pt⟩
  · rw [uvmalloc, if_neg hlt] at h
    exact uvmallocLoop_conserves hperm hnew _ _ m m' r rfl hW hS (PGROUNDUP_aligned oldsz) hnone h

end Moves

/-! ## Every call holds the same pages -/

section Calls

variable {m m' : Machine} {p p' : Proc}

/-- `growproc(n)` on a process image of this shape keeps the shape and holds the same pages. -/
theorem Image.growproc_conserves {n : Int32} {r : Int} (h : Image m p) (hS : Shape m p.pagetable)
    (hg : Vm.growproc m p n = .ok (r, p', m')) : Shape m' p.pagetable ∧ Conserves m m' p.pagetable := by
  have hsz := h.sz_le
  rw [Vm.growproc] at hg
  dsimp only at hg
  by_cases hn : 0 < n
  · rw [if_pos hn] at hg
    by_cases htop : (p.sz + n.toInt.toNat) % 2 ^ 64 > TRAPFRAME
    · -- past `TRAPFRAME`: nothing changes
      rw [if_pos htop] at hg
      cases hg
      exact ⟨hS, Conserves.refl m _⟩
    · rw [if_neg htop] at hg
      obtain ⟨⟨sz, m₁⟩, halloc, hg⟩ := bind_eq_ok hg
      have hm : m' = m₁ := by
        dsimp only at hg
        split_ifs at hg <;> cases hg <;> rfl
      subst hm
      -- the new pages lie from the old rounded size up to `TRAPFRAME`, where nothing is mapped
      exact uvmalloc_conserves h.wf hS (by decide) (by omega)
        (fun b h1 h2 => h.above b h1 (by omega)) halloc
  · rw [if_neg hn] at hg
    by_cases hn' : n < 0
    · rw [if_pos hn'] at hg
      obtain ⟨⟨sz, m₁⟩, hd, hg⟩ := bind_eq_ok hg
      cases hg
      exact uvmdealloc_conserves h.wf hS hsz hd
    · rw [if_neg hn'] at hg
      cases hg
      exact ⟨hS, Conserves.refl m _⟩

/-- `sys_sbrk(n, t)` on a process image of this shape keeps the shape and holds the same pages:
eagerly through `growproc`, lazily with the memory untouched. -/
theorem Image.sysSbrk_conserves {n t : Int32} {a : Nat} (h : Image m p) (hS : Shape m p.pagetable)
    (hs : Vm.sysSbrk m p n t = .ok (a, p', m')) : Shape m' p.pagetable ∧ Conserves m m' p.pagetable := by
  rw [Vm.sysSbrk] at hs
  dsimp only at hs
  by_cases ht : t = SBRK_EAGER ∨ n < 0
  · rw [if_pos ht] at hs
    obtain ⟨⟨r, p₁, m₁⟩, hg, hs⟩ := bind_eq_ok hs
    have hm : m' = m₁ := by
      dsimp only at hs
      split_ifs at hs <;> cases hs <;> rfl
    subst hm
    exact h.growproc_conserves hS hg
  · rw [if_neg ht] at hs
    have hm : m' = m := by
      split_ifs at hs <;> cases hs <;> rfl
    rw [hm]
    exact ⟨hS, Conserves.refl m _⟩

/-- A page fault on a process image of this shape keeps the shape and holds the same pages: the
page `vmfault` takes becomes the frame of `va`'s page, or is free again. -/
theorem Image.vmfault_conserves {va pa : Nat} (h : Image m p) (hS : Shape m p.pagetable)
    (hv : vmfault p m p.pagetable va = .ok (pa, m')) :
    Shape m' p.pagetable ∧ Conserves m m' p.pagetable := by
  have hsz := h.sz_le
  have hTM := TRAPFRAME_le_MAXVA
  by_cases hva : va < p.sz
  · rw [vmfault_down hva] at hv
    have hal := PGROUNDDOWN_aligned va
    have hle := PGROUNDDOWN_le va
    have hlt : PGROUNDDOWN va < MAXVA := by omega
    cases hl : m.leaf p.pagetable (PGROUNDDOWN va) with
    | some v =>
      -- already mapped: nothing to do
      rw [vmfault_not_lazy hlt hal (fun hn => by rw [hl] at hn; cases hn.1)] at hv
      cases hv
      exact ⟨hS, Conserves.refl m _⟩
    | none =>
      have hdown : PGROUNDDOWN (PGROUNDDOWN va) = PGROUNDDOWN va := by
        unfold PGROUNDDOWN PGSIZE
        omega
      rw [vmfault, if_neg (by omega)] at hv
      simp only [hdown, ismapped_eq hlt, hl, ok_bind, Option.isSome_none, Bool.false_eq_true,
        if_false] at hv
      cases hfree : m.free with
      | nil =>
        -- nothing free: `kalloc` fails and nothing changes
        simp only [kalloc, hfree] at hv
        cases hv
        exact ⟨hS, Conserves.refl m _⟩
      | cons q rest =>
        simp only [kalloc, hfree] at hv
        obtain ⟨⟨r, m₃⟩, hmap, hv⟩ := bind_eq_ok hv
        obtain ⟨hS₃, hmapped, hfailed⟩ :=
          h.wf.alloc_map_conserves hS hfree hal (by omega) fault_perm_lt hl hmap
        dsimp only at hv
        by_cases hr : r = 0
        · rw [if_neg (not_not.mpr hr)] at hv
          cases hv
          exact ⟨hS₃, hmapped hr⟩
        · -- `mappages` failed: `kfree(mem)`
          obtain ⟨hkf, hS₄, hc₄⟩ := hfailed hr
          rw [if_pos hr, hkf, ok_bind] at hv
          cases hv
          exact ⟨hS₄, hc₄⟩
  · -- at or above the size: nothing to do
    rw [vmfault, if_pos (by omega)] at hv
    cases hv
    exact ⟨hS, Conserves.refl m _⟩

/-- Every call on a process image of this shape keeps the shape and holds the same pages. -/
theorem Image.step_conserves {op : MemOp} (h : Image m p) (hS : Shape m p.pagetable)
    (hs : memStep m p op = .ok (p', m')) : Shape m' p.pagetable ∧ Conserves m m' p.pagetable := by
  cases op with
  | sbrk n t =>
    rw [memStep] at hs
    obtain ⟨⟨a, p₁, m₁⟩, hsb, hs⟩ := bind_eq_ok hs
    cases hs
    exact h.sysSbrk_conserves hS hsb
  | fault va =>
    rw [memStep] at hs
    obtain ⟨⟨pa, m₁⟩, hv, hs⟩ := bind_eq_ok hs
    cases hs
    exact h.vmfault_conserves hS hv

/-- A run of calls from a process image of this shape keeps the shape and holds the same
pages. -/
theorem Image.run_conserves (ops : List MemOp) :
    ∀ (m : Machine) (p p' : Proc) (m' : Machine), Image m p → Shape m p.pagetable →
      memRun m p ops = .ok (p', m') → Shape m' p.pagetable ∧ Conserves m m' p.pagetable := by
  -- induction on the calls; `Image.step` carries the image from one call to the next
  induction ops with
  | nil =>
    intro m p p' m' _ hS hr
    rw [memRun] at hr
    cases hr
    exact ⟨hS, Conserves.refl m _⟩
  | cons op ops ih =>
    intro m p p' m' h hS hr
    obtain ⟨p₁, m₁, hstep, h₁, hpt₁, -⟩ := h.step op
    rw [memRun, hstep, ok_bind] at hr
    obtain ⟨hS₁, hc₁⟩ := h.step_conserves hS hstep
    obtain ⟨hS', hc'⟩ := ih m₁ p₁ p' m' h₁ (hpt₁ ▸ hS₁) hr
    rw [hpt₁] at hS' hc'
    exact ⟨hS', hc₁.trans hc'⟩

end Calls

/-! ## The life of a process -/

section Life

/-- The life of a process's memory: from a process image of this shape, any run of `sys_sbrk`
calls, eager, lazy or negative, and page faults, followed by `proc_freepagetable`, never panics,
and the free list then holds, each once, exactly the pages the process held at the start: the
pages free then, the tables and the frames below `TRAPFRAME`. No page is lost or freed twice. -/
theorem memRun_freepagetable {m : Machine} {p : Proc} (h : Image m p) (hS : Shape m p.pagetable)
    (ops : List MemOp) :
    ∃ p' m' m'', memRun m p ops = .ok (p', m') ∧
      procFreepagetable m' p'.pagetable p'.sz = .ok m'' ∧ m''.free.Nodup ∧
      ∀ q, q ∈ m''.free ↔ m.Owns p.pagetable q := by
  obtain ⟨p', m', hrun, h', hpt, -⟩ := Image.run_spec ops m p h
  obtain ⟨hS', hc⟩ := Image.run_conserves ops m p p' m' h hS hrun
  rw [← hpt] at hS'
  obtain ⟨m'', hfree, hnd, hmem⟩ := procFreepagetable_frees h' hS'
  rw [hpt] at hmem
  exact ⟨p', m', m'', hrun, hfree, hnd, fun q => (hmem q).trans (hc q)⟩

theorem memRun_freepagetable_roomyMachine :
    Image roomyMachine ⟨0x87000000, 0⟩ ∧ Shape roomyMachine 0x87000000 ∧
      ∃ p' m' m'', memRun roomyMachine ⟨0x87000000, 0⟩
          [.sbrk 4096 SBRK_LAZY, .fault 0, .sbrk 4096 SBRK_EAGER, .sbrk (-4096) SBRK_EAGER] =
          .ok (p', m') ∧
        procFreepagetable m' p'.pagetable p'.sz = .ok m'' ∧ m''.free.Nodup ∧
        ∀ q, q ∈ m''.free ↔ roomyMachine.Owns 0x87000000 q := by
  refine ⟨roomyMachine_image, roomyMachine_shape, ?_⟩
  have h := memRun_freepagetable (p := ⟨0x87000000, 0⟩) roomyMachine_image roomyMachine_shape
    [.sbrk 4096 SBRK_LAZY, .fault 0, .sbrk 4096 SBRK_EAGER, .sbrk (-4096) SBRK_EAGER]
  dsimp only at h
  exact h

end Life

end Xv6.Vm
