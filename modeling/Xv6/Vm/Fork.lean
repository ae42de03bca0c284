import Xv6.Vm.Uvm

/-!
# Xv6.Vm.Fork — `uvmcopy`, the copy of the user memory that `fork` makes

`uvmcopy(old, new, sz)` goes through the pages below `sz`; for each page `old` translates it takes
a page with `kalloc`, copies the frame into it and maps it in `new` with the same flags. On
failure it `uvmunmap`s what it mapped in `new` below the failing page and returns `-1`.

The two tables share one memory, so the development carries an invariant of the pair
(`TwoTables`): both are well formed and no table of `new` is a table or a frame of `old`. A turn
only writes `new`'s tables and pages that were free, so it keeps the invariant and every table,
translation and frame byte of `old` (`TwoTables.of_grows`). A run of the loop (`uvmcopyLoop_run`)
either leaves in `new` a private copy of every page of `old` (`Copied`), or unmaps `new` below
`sz`, giving back every frame it took; the pages the walks took for `new`'s tables stay there.
-/

namespace Xv6.Vm

open Xv6.Lib

/-! ## Two tables in one memory -/

/-- The page table `new` that `uvmcopy` fills from `old`: both well formed in `m`, and no table
of `new` is a table or a frame of `old`. -/
structure TwoTables (m : Machine) (old new : Nat) : Prop where
  old_wf : Wf m old
  new_wf : Wf m new
  not_table : ∀ va l t va' l', l ≤ 2 → l' ≤ 2 → m.table new va l = some t →
    m.table old va' l' ≠ some t
  not_frame : ∀ va l t va' v, l ≤ 2 → m.table new va l = some t → va' < MAXVA →
    m.leaf old va' = some v → PTE2PA v ≠ t

/-- Page `b` of `new` in `m'` is a private copy of page `b` of `old` in `m`: without a translation
where `old` has none, else translated with the same flags to a page that was free in `m` and
holds the bytes of `old`'s page. -/
def Copied (m m' : Machine) (old new b : Nat) : Prop :=
  match m.leaf old b with
  | none => m'.leaf new b = none
  | some v => ∃ w, m'.leaf new b = some w ∧ PTE_FLAGS w = PTE_FLAGS v ∧ PTE2PA w ∈ m.free ∧
      ∀ o, o < PGSIZE → m'.mem (PTE2PA w + o) = m.mem (PTE2PA v + o)

/-- The table `pt` is untouched from `m` to `m'`: its tables, its translations and the bytes of
its frames are as they were. -/
structure Untouched (m m' : Machine) (pt : Nat) : Prop where
  table : ∀ va l, m'.table pt va l = m.table pt va l
  leaf : ∀ va, m'.leaf pt va = m.leaf pt va
  frames : FramesKept m m' pt

/-- The frames that `new` maps below `i` are neither tables nor frames of `old`. -/
def Private (m : Machine) (old new i : Nat) : Prop :=
  ∀ b v, b < i → m.leaf new b = some v →
    (∀ va l t, l ≤ 2 → m.table old va l = some t → PTE2PA v ≠ t) ∧
    ∀ a v', a < MAXVA → m.leaf old a = some v' → PTE2PA v ≠ PTE2PA v'

section TwoTables

variable {m m' m'' : Machine} {old new : Nat}

theorem Untouched.trans {pt : Nat} (h₁ : Untouched m m' pt) (h₂ : Untouched m' m'' pt) :
    Untouched m m'' pt where
  table va l := (h₂.table va l).trans (h₁.table va l)
  leaf va := (h₂.leaf va).trans (h₁.leaf va)
  frames a v o ha hv ho := by
    have hv' : m'.leaf pt a = some v := (h₁.leaf a).trans hv
    rw [h₂.frames a v o ha hv' ho, h₁.frames a v o ha hv ho]

/-- A table with the tables and translations of a well-formed `m` is well formed in `m'` when the
free list of `m'` is that of a well-formed memory and holds none of its tables and frames. -/
theorem Wf.of_free {pt pt' : Nat} (hW : Wf m pt) (hW' : Wf m' pt')
    (ht : ∀ va l, m'.table pt va l = m.table pt va l) (hl : ∀ va, m'.leaf pt va = m.leaf pt va)
    (hk : m'.kend = m.kend) (hnt : ∀ va l t, l ≤ 2 → m.table pt va l = some t → t ∉ m'.free)
    (hnf : ∀ va v, va < MAXVA → m.leaf pt va = some v → PTE2PA v ∉ m'.free) : Wf m' pt := by
  have hT := hW.tree
  have hT' := hW'.tree
  refine ⟨⟨?_, ?_, ?_, hT'.free_aligned, hT'.free_lt, hT'.free_nodup⟩, hW'.kend_pos, hW'.free_ge,
    ?_, ?_, ?_, ?_, ?_⟩
  · intro va l t h
    rw [ht] at h
    exact hT.aligned va l t h
  · intro va l t h
    rw [ht] at h
    by_cases hl2 : l ≤ 2
    · exact hnt va l t hl2 h
    · -- above level 2 the table is the root, as at level 2
      obtain ⟨n, rfl⟩ : ∃ n, l = n + 3 := ⟨l - 3, by omega⟩
      exact hnt va 2 t (le_refl 2) h
  · intro va va' l l' t hl2 hl2' h h'
    rw [ht] at h h'
    exact hT.inj va va' l l' t hl2 hl2' h h'
  · intro va v hva h
    rw [hl] at h
    rw [hk]
    exact hW.frame_ge va v hva h
  · intro va v hva h
    rw [hl] at h
    exact hW.frame_lt va v hva h
  · intro va v va' l t hva h hl2 h'
    rw [hl] at h
    rw [ht] at h'
    exact hW.frame_not_table va v va' l t hva h hl2 h'
  · intro va v hva h
    rw [hl] at h
    exact hnf va v hva h
  · intro va va' v v' hva hva' h h'
    rw [hl] at h h'
    exact hW.frame_inj va va' v v' hva hva' h h'

/-- The bytes of a page that is neither a table of `pt` nor free lie off `pt`'s tables and off
the free pages. -/
theorem Tree.off_page {pt : Nat} (hT : Tree m pt) {p i : Nat} (hp : p % PGSIZE = 0)
    (hnt : ∀ va l t, l ≤ 2 → m.table pt va l = some t → t ≠ p) (hnf : p ∉ m.free)
    (hi : p ≤ i ∧ i < p + PGSIZE) : (∀ l ≤ 2, ¬ m.InTable pt l i) ∧ ¬ m.InFree i := by
  constructor
  · rintro l hl ⟨va, t, ht, hin⟩
    exact pages_apart (hT.aligned va l t ht) hp (hnt va l t hl ht) hin hi
  · rintro ⟨q, hq, hin⟩
    have hne : q ≠ p := fun he => hnf (he ▸ hq)
    exact pages_apart (hT.free_aligned q hq) hp hne hin hi

/-- Growing `new` keeps the pair: it writes neither `old`'s tables nor `old`'s frames, which are
neither `new`'s tables nor free, and the tables it adds were free, so none of `old`'s. -/
theorem TwoTables.of_grows (h : TwoTables m old new) (hg : Grows m m' new) (hW' : Wf m' new) :
    TwoTables m' old new ∧ Untouched m m' old := by
  have hWo := h.old_wf
  have htab : ∀ i, (∃ l ≤ 2, m.InTable old l i) → m'.mem i = m.mem i := by
    rintro i ⟨l, hl, va, t, ht, hin⟩
    obtain ⟨hnt, hnf⟩ := h.new_wf.tree.off_page (hWo.tree.aligned va l t ht)
      (fun va' l' t' hl' ht' he => h.not_table va' l' t' va l hl' hl ht' (he ▸ ht))
      (hWo.tree.not_free va l t ht) hin
    exact hg.mem i hnt hnf
  obtain ⟨ht, hl⟩ := tables_of_mem htab
  have hframe : FramesKept m m' old := by
    intro a v o ha hv ho
    obtain ⟨hnt, hnf⟩ := h.new_wf.tree.off_page (i := PTE2PA v + o) (PTE2PA_aligned v)
      (fun va' l' t' hl' ht' he => h.not_frame va' l' t' a v hl' ht' ha hv he.symm)
      (hWo.frame_not_free a v ha hv) ⟨by omega, by omega⟩
    exact hg.mem _ hnt hnf
  have hWo' : Wf m' old :=
    hWo.of_same_frames ht hg.free hg.kend fun va w _ hw => ⟨w, (hl va) ▸ hw, rfl⟩
  refine ⟨⟨hWo', hW', ?_, ?_⟩, ht, hl, hframe⟩
  · -- a table of `new` was one before, or a free page
    intro va l t va' l' hl2 hl2' hnew hold
    rw [ht] at hold
    rcases hg.table va l t hnew with hnew | hfree
    · exact h.not_table va l t va' l' hl2 hl2' hnew hold
    · exact hWo.tree.not_free va' l' t hold hfree
  · intro va l t va' v hl2 hnew ha hv
    rw [hl] at hv
    rcases hg.table va l t hnew with hnew | hfree
    · exact h.not_frame va l t va' v hl2 hnew ha hv
    · exact fun he => hWo.frame_not_free va' v ha hv (he ▸ hfree)

end TwoTables

/-! ## A turn of the loop -/

section Turn

variable {m : Machine} {old new sz i : Nat}

theorem PTE_FLAGS_lt (v : Nat) : PTE_FLAGS v < 2 ^ 10 := Nat.and_lt_two_pow v (by decide)

/-- The flags of a valid entry hold `PTE_V` already, so `mappages` maps with them unchanged. -/
theorem PTE_FLAGS_or_valid {v : Nat} (hv : v &&& PTE_V ≠ 0) : PTE_FLAGS v ||| PTE_V = PTE_FLAGS v := by
  have h0 : v.testBit 0 = true := (and_flag_ne_zero_iff v 0).mp hv
  apply Nat.eq_of_testBit_eq
  intro k
  rw [Nat.testBit_or, PTE_FLAGS, Nat.testBit_and]
  rcases k with _ | k
  · simp [h0, PTE_V]
  · simp [PTE_V, Nat.testBit_succ]

/-- `kalloc` of the head `q` of the free list and `memmove(mem, (char*)pa, PGSIZE)`, for a frame
`pa` apart from `q`: the free list loses `q`, which now holds the bytes of `pa`'s page, and no
other byte changed. -/
theorem kalloc_memmove {q pa : Nat} {rest : List Nat}
    (hpa : ∀ o, o < PGSIZE → ¬ (q ≤ pa + o ∧ pa + o < q + PGSIZE)) :
    let m₁ := { m with free := rest }.memset q 5 PGSIZE
    let m₂ : Machine := { m₁ with mem := copyBytes m₁.mem q (fun j => m₁.mem (pa + j)) PGSIZE }
    m₂.free = rest ∧ m₂.kend = m.kend ∧
      (∀ i, ¬ (q ≤ i ∧ i < q + PGSIZE) → m₂.mem i = m.mem i) ∧
      ∀ o, o < PGSIZE → m₂.mem (q + o) = m.mem (pa + o) := by
  intro m₁ m₂
  have hm₁ : ∀ i, ¬ (q ≤ i ∧ i < q + PGSIZE) → m₁.mem i = m.mem i :=
    fun i hi => Machine.mem_memset_of_apart (by omega)
  refine ⟨rfl, rfl, fun i hi => ?_, fun o ho => ?_⟩
  · show copyBytes m₁.mem q (fun j => m₁.mem (pa + j)) PGSIZE i = m.mem i
    by_cases hlo : i < q
    · rw [copyBytes_of_lt _ _ _ hlo, hm₁ i hi]
    · rw [copyBytes_of_ge _ _ (by omega), hm₁ i hi]
  · show copyBytes m₁.mem q (fun j => m₁.mem (pa + j)) PGSIZE (q + o) = m.mem (pa + o)
    rw [copyBytes_of_mem _ _ (by omega) (by omega), Nat.add_sub_cancel_left, hm₁ _ (hpa o ho)]

/-- `uvmcopy` skips a page that `old` does not translate. -/
theorem uvmcopyLoop_skip (hi : i < sz) (hlt : i < MAXVA) (hl : m.leaf old i = none) :
    uvmcopyLoop old new sz i m = uvmcopyLoop old new sz (i + PGSIZE) m := by
  rw [uvmcopyLoop, if_pos hi, walk_false hlt, ok_bind]
  dsimp only
  cases hs : m.slot old i with
  | none => rfl
  | some e =>
    -- the entry is there but invalid
    have hinv : m.pte e &&& PTE_V = 0 := by
      by_contra hv
      have h := Machine.leaf_eq_some.mpr ⟨e, hs, hv, rfl⟩
      rw [hl] at h
      cases h
    dsimp only
    rw [if_pos hinv]

/-- A page that `old` translates, with no free page left: `uvmcopy` goes to `err`. -/
theorem uvmcopyLoop_nomem {v : Nat} (hi : i < sz) (hlt : i < MAXVA) (hl : m.leaf old i = some v)
    (hfree : m.free = []) : uvmcopyLoop old new sz i m = uvmcopyErr new i m := by
  obtain ⟨e, hs, hv, rfl⟩ := Machine.leaf_eq_some.mp hl
  rw [uvmcopyLoop, if_pos hi, walk_false hlt, ok_bind]
  dsimp only
  rw [hs]
  dsimp only
  rw [if_neg hv]
  simp only [kalloc, hfree]

/-- A page that `old` translates, with `q` at the head of the free list: `uvmcopy` copies the
frame into `q`, maps `q` in `new` with the same flags, and goes on, or on failure frees `q` and
goes to `err`. -/
theorem uvmcopyLoop_take {v q : Nat} {rest : List Nat} (hi : i < sz) (hlt : i < MAXVA)
    (hl : m.leaf old i = some v) (hfree : m.free = q :: rest) :
    let m₁ := { m with free := rest }.memset q 5 PGSIZE
    uvmcopyLoop old new sz i m =
      mappages { m₁ with mem := copyBytes m₁.mem q (fun j => m₁.mem (PTE2PA v + j)) PGSIZE }
          new i PGSIZE q (PTE_FLAGS v) >>= fun x =>
        if x.1 ≠ 0 then kfree x.2 q >>= uvmcopyErr new i
        else uvmcopyLoop old new sz (i + PGSIZE) x.2 := by
  obtain ⟨e, hs, hv, rfl⟩ := Machine.leaf_eq_some.mp hl
  rw [uvmcopyLoop, if_pos hi, walk_false hlt, ok_bind]
  dsimp only
  rw [hs]
  dsimp only
  rw [if_neg hv]
  simp only [kalloc, hfree]

/-- The `err` label of `uvmcopy` at a page-aligned `i ≤ TRAMPOLINE`: `uvmunmap` of `new` below
`i`, which unmaps every page there and frees its frame, keeping the rest. It writes only `new`'s
tables and the frames it frees, and frees nothing else. -/
theorem uvmcopyErr_run (hW : Wf m new) (hal : i % PGSIZE = 0) (hi : i ≤ TRAMPOLINE) :
    ∃ m', uvmcopyErr new i m = .ok (-1, m') ∧ Wf m' new ∧
      (∀ b, b < i → m'.leaf new b = none) ∧
      (∀ b, b < MAXVA → i ≤ b → m'.leaf new b = m.leaf new b) ∧
      (∀ b v, b < i → m.leaf new b = some v → PTE2PA v ∈ m'.free) ∧
      (∀ q ∈ m.free, q ∈ m'.free) ∧ (∀ va l, m'.table new va l = m.table new va l) ∧
      (∀ j, (∀ l ≤ 2, ¬ m.InTable new l j) →
        (∀ b v, b < i → m.leaf new b = some v → ¬ (PTE2PA v ≤ j ∧ j < PTE2PA v + PGSIZE)) →
        m'.mem j = m.mem j) ∧
      (∀ q ∈ m'.free, q ∈ m.free ∨ ∃ b v, b < i ∧ m.leaf new b = some v ∧ q = PTE2PA v) ∧
      m'.kend = m.kend := by
  have hnp : 0 + i / PGSIZE * PGSIZE = i := by
    unfold PGSIZE at hal ⊢
    omega
  obtain ⟨m', hrun, hW', hnone', hsame', hfreed', hsub', ht', -, hfoot', hnew', hk'⟩ :=
    uvmunmapLoop_free (i / PGSIZE) 0 m hW (by decide) (by rw [hnp]; exact hi)
  rw [hnp] at hnone' hsame' hfreed' hfoot' hnew'
  refine ⟨m', ?_, hW', fun b hb => hnone' b (Nat.zero_le b) hb,
    fun b hb hib => hsame' b hb (.inr hib), fun b v hb h => hfreed' b v (Nat.zero_le b) hb h,
    hsub', ht', fun j hj hf => hfoot' j hj fun b v _ hb h => hf b v hb h, fun q hq => ?_, hk'⟩
  · rw [uvmcopyErr, uvmunmap, if_neg (by decide), hrun]
    rfl
  · rcases hnew' q hq with hq | ⟨b, v, -, hb, h, rfl⟩
    · exact .inl hq
    · exact .inr ⟨b, v, hb, h, rfl⟩

/-- The `err` label after a copy that mapped only private frames below `i`: `new` loses every
translation below `i` and their frames are free, while `old` is untouched and the pair stays
apart. -/
theorem TwoTables.err (h : TwoTables m old new) (hp : Private m old new i) (hal : i % PGSIZE = 0)
    (hi : i ≤ TRAMPOLINE) :
    ∃ m', uvmcopyErr new i m = .ok (-1, m') ∧ TwoTables m' old new ∧ Untouched m m' old ∧
      (∀ b, b < i → m'.leaf new b = none) ∧
      (∀ b, b < MAXVA → i ≤ b → m'.leaf new b = m.leaf new b) ∧
      (∀ b v, b < i → m.leaf new b = some v → PTE2PA v ∈ m'.free) ∧
      (∀ q ∈ m.free, q ∈ m'.free) ∧ ∀ va l, m'.table new va l = m.table new va l := by
  have hWo := h.old_wf
  have hWn := h.new_wf
  obtain ⟨m', hrun, hW', hnone', hsame', hfreed', hsub', ht', hfoot', hnew', hk'⟩ :=
    uvmcopyErr_run hWn hal hi
  -- a page that is neither a table of `new` nor a frame it frees keeps its bytes
  have hkeep : ∀ p j, p % PGSIZE = 0 → (∀ va l t, l ≤ 2 → m.table new va l = some t → t ≠ p) →
      (∀ b v, b < i → m.leaf new b = some v → PTE2PA v ≠ p) → p ≤ j → j < p + PGSIZE →
      m'.mem j = m.mem j := by
    intro p j hpal hnt hnf h1 h2
    apply hfoot' j
    · rintro l hl ⟨va, t, ht, hin⟩
      exact pages_apart (hWn.tree.aligned va l t ht) hpal (hnt va l t hl ht) hin ⟨h1, h2⟩
    · intro b v hb hv hin
      exact pages_apart (PTE2PA_aligned v) hpal (hnf b v hb hv) hin ⟨h1, h2⟩
  have htab : ∀ j, (∃ l ≤ 2, m.InTable old l j) → m'.mem j = m.mem j := by
    rintro j ⟨l, hl, va, t, ht, h1, h2⟩
    apply hkeep t j (hWo.tree.aligned va l t ht) _ _ h1 h2
    · intro va' l' t' hl' ht' he
      exact h.not_table va' l' t' va l hl' hl ht' (he ▸ ht)
    · intro b v hb hv
      exact (hp b v hb hv).1 va l t hl ht
  obtain ⟨hto, hlo⟩ := tables_of_mem htab
  have hframe : FramesKept m m' old := by
    intro a v o ha hv ho
    apply hkeep (PTE2PA v) _ (PTE2PA_aligned v) _ _ (by omega) (by omega)
    · intro va l t hl ht he
      exact h.not_frame va l t a v hl ht ha hv he.symm
    · intro b w hb hw
      exact (hp b w hb hw).2 a v ha hv
  -- a page free in `m'` was free in `m` or is a frame `new` gave back: none of `old`'s
  have hWo' : Wf m' old := by
    apply hWo.of_free hW' hto hlo hk'
    · intro va l t hl ht hq
      rcases hnew' t hq with hq | ⟨b, v, hb, hv, he⟩
      · exact hWo.tree.not_free va l t ht hq
      · exact (hp b v hb hv).1 va l t hl ht he.symm
    · intro va v hva hv hq
      rcases hnew' _ hq with hq | ⟨b, w, hb, hw, he⟩
      · exact hWo.frame_not_free va v hva hv hq
      · exact (hp b w hb hw).2 va v hva hv he.symm
  refine ⟨m', hrun, ⟨hWo', hW', ?_, ?_⟩, ⟨hto, hlo, hframe⟩, hnone', hsame', hfreed', hsub', ht'⟩
  · intro va l t va' l' hl hl' hnew hold
    rw [ht'] at hnew
    rw [hto] at hold
    exact h.not_table va l t va' l' hl hl' hnew hold
  · intro va l t va' v hl hnew ha hv
    rw [ht'] at hnew
    rw [hlo] at hv
    exact h.not_frame va l t va' v hl hnew ha hv

/-- A turn of `uvmcopy` on a page `i` that `old` translates and `new` does not, with `q` at the
head of the free list: `q` gets the bytes of `old`'s frame and `mappages` maps it in `new` with
`old`'s flags. Either the map succeeds, the pair stays apart with `old` untouched, and `new`
translates `i` to `q` and nothing else anew; or it fails, `kfree(mem)` gives `q` back, and `new`
translates what it did in `m`. Either way `new` keeps its tables. -/
theorem TwoTables.copy_turn (h : TwoTables m old new) (hp : Private m old new i) {q : Nat}
    {rest : List Nat} (hfree : m.free = q :: rest) {v : Nat} (hal : i % PGSIZE = 0)
    (hi : i < TRAMPOLINE) (hl : m.leaf old i = some v) (hnone : m.leaf new i = none) :
    let m₁ := { m with free := rest }.memset q 5 PGSIZE
    ∃ r m₃, mappages { m₁ with mem := copyBytes m₁.mem q (fun j => m₁.mem (PTE2PA v + j)) PGSIZE }
        new i PGSIZE q (PTE_FLAGS v) = .ok (r, m₃) ∧
      (∀ va l t, m.table new va l = some t → m₃.table new va l = some t) ∧
      ((r = 0 ∧ TwoTables m₃ old new ∧ Untouched m m₃ old ∧ Private m₃ old new (i + PGSIZE) ∧
          FramesKept m m₃ new ∧ (∀ q' ∈ m₃.free, q' ∈ m.free) ∧
          (∀ q' ∈ m.free, q' = q ∨ q' ∈ m₃.free ∨ ∃ va l, l ≤ 2 ∧ m₃.table new va l = some q') ∧
          m₃.leaf new i = some (leafPte q (PTE_FLAGS v)) ∧ PTE2PA (leafPte q (PTE_FLAGS v)) = q ∧
          PTE_FLAGS (leafPte q (PTE_FLAGS v)) = PTE_FLAGS v ∧ q ∈ m.free ∧
          (∀ a, a < MAXVA → a / PGSIZE ≠ i / PGSIZE → m₃.leaf new a = m.leaf new a) ∧
          ∀ o, o < PGSIZE → m₃.mem (q + o) = m.mem (PTE2PA v + o)) ∨
        (r = -1 ∧ ∃ m₄, Vm.kfree m₃ q = .ok m₄ ∧ TwoTables m₄ old new ∧ Untouched m m₄ old ∧
          Private m₄ old new i ∧ (∀ a, m₄.leaf new a = m.leaf new a) ∧
          (∀ va l, m₄.table new va l = m₃.table new va l) ∧
          ∀ q' ∈ m.free, q' ∈ m₄.free ∨ ∃ va l, l ≤ 2 ∧ m₄.table new va l = some q')) := by
  intro m₁
  have hWo := h.old_wf
  have hWn := h.new_wf
  have hmax := lt_MAXVA_of_lt_TRAMPOLINE hi
  have hqm : q ∈ m.free := hfree ▸ List.mem_cons_self
  have hq_al := hWn.tree.free_aligned q hqm
  -- `q` was free, so it is no frame of `old`: the copy reads `old`'s frame intact
  have hqv : q ≠ PTE2PA v := fun he => hWo.frame_not_free i v hmax hl (he ▸ hqm)
  obtain ⟨hf₂', hk₂', hmem₂', hcopy'⟩ := @kalloc_memmove m q (PTE2PA v) rest
    fun o _ hin => pages_apart hq_al (PTE2PA_aligned v) hqv hin ⟨by omega, by omega⟩
  let m₂ : Machine := { m₁ with mem := copyBytes m₁.mem q (fun j => m₁.mem (PTE2PA v + j)) PGSIZE }
  have hf₂ : m₂.free = rest := hf₂'
  have hk₂ : m₂.kend = m.kend := hk₂'
  have hmem₂ : ∀ j, ¬ (q ≤ j ∧ j < q + PGSIZE) → m₂.mem j = m.mem j := hmem₂'
  have hcopy : ∀ o, o < PGSIZE → m₂.mem (q + o) = m.mem (PTE2PA v + o) := hcopy'
  -- taking `q` and filling it writes neither `new`'s tables nor any page outside the free list
  have hg₂ : Grows m m₂ new := by
    have hkeep : ∀ j, (∃ l ≤ 2, m.InTable new l j) → m₂.mem j = m.mem j := by
      rintro j ⟨l, hl2, va, t, ht, hin⟩
      apply hmem₂ j
      exact pages_apart (hWn.tree.aligned va l t ht) hq_al
        (fun he => hWn.tree.not_free va l t ht (he ▸ hqm)) hin
    obtain ⟨ht₂, -⟩ := tables_of_mem hkeep
    refine ⟨hk₂, ?_, ?_, ?_⟩
    · rw [hf₂, hfree]
      exact List.sublist_cons_self q rest
    · intro va l t ht
      rw [ht₂] at ht
      exact .inl ht
    · intro j _ hj
      exact hmem₂ j fun hin => hj ⟨q, hqm, hin⟩
  obtain ⟨r, m₃, hmap, hg₃, -, hframe₃, hsub₃, hkept₃, htaken₃, hres⟩ :=
    @Wf.take_map m new hWn q rest hfree m₂ hf₂ hk₂ hmem₂ i (PTE_FLAGS v) hal hmax (PTE_FLAGS_lt v)
      hnone
  have hg : Grows m m₃ new := hg₂.trans hg₃
  refine ⟨r, m₃, hmap, hkept₃, ?_⟩
  rcases hres with ⟨rfl, hW₃, hself, hpa, hother, hbytes⟩ | ⟨rfl, -, hkf, hW₄, ht₄, hl₄, -⟩
  · -- mapped: `new` translates `i` to the copy
    obtain ⟨h₃, hu₃⟩ := h.of_grows hg hW₃
    have hflags : PTE_FLAGS (leafPte q (PTE_FLAGS v)) = PTE_FLAGS v := by
      obtain ⟨e, -, hv, rfl⟩ := Machine.leaf_eq_some.mp hl
      rw [PTE_FLAGS_leafPte q (PTE_FLAGS_lt _), PTE_FLAGS_or_valid hv]
    refine .inl ⟨rfl, h₃, hu₃, ?_, hframe₃, fun q' hq' => hfree ▸ List.mem_cons_of_mem q (hsub₃ q' hq'),
      htaken₃, hself, hpa, hflags, hqm, hother, fun o ho => (hbytes o ho).trans (hcopy o ho)⟩
    intro b w hb hw
    by_cases hpg : b / PGSIZE = i / PGSIZE
    · -- page `i`: its frame is `q`, which was free
      rw [Machine.leaf_of_page hpg, hself] at hw
      cases hw
      rw [hpa]
      constructor
      · intro va l t _ ht he
        rw [hu₃.table] at ht
        exact hWo.tree.not_free va l t ht (he ▸ hqm)
      · intro a v' ha hv' he
        rw [hu₃.leaf] at hv'
        exact hWo.frame_not_free a v' ha hv' (he ▸ hqm)
    · -- below page `i`, as in `m`
      have hb' : b < i := by
        by_contra hge
        exact hpg (page_eq_of_mem hal (by omega) hb)
      rw [hother b (by omega) hpg] at hw
      obtain ⟨hnt, hnf⟩ := hp b w hb' hw
      constructor
      · intro va l t hl2 ht
        rw [hu₃.table] at ht
        exact hnt va l t hl2 ht
      · intro a v' ha hv'
        rw [hu₃.leaf] at hv'
        exact hnf a v' ha hv'
  · -- not mapped: `kfree(mem)` gives `q` back
    have hg₄ : Grows m { m₃.memset q 1 PGSIZE with free := q :: m₃.free } new := by
      refine ⟨hg.kend, ?_, ?_, ?_⟩
      · show (q :: m₃.free).Sublist m.free
        rw [hfree]
        exact (hf₂ ▸ hg₃.free).cons_cons q
      · intro va l t ht
        rw [ht₄] at ht
        exact hg.table va l t ht
      · intro j hj hfj
        have hq : ¬ (q ≤ j ∧ j < q + PGSIZE) := fun hin => hfj ⟨q, hqm, hin⟩
        show (m₃.memset q 1 PGSIZE).mem j = m.mem j
        rw [Machine.mem_memset_of_apart (by omega)]
        exact hg.mem j hj hfj
    obtain ⟨h₄, hu₄⟩ := h.of_grows hg₄ hW₄
    refine .inr ⟨rfl, _, hkf, h₄, hu₄, ?_, hl₄, ht₄, ?_⟩
    · intro b w hb hw
      rw [hl₄] at hw
      obtain ⟨hnt, hnf⟩ := hp b w hb hw
      constructor
      · intro va l t hl2 ht
        rw [hu₄.table] at ht
        exact hnt va l t hl2 ht
      · intro a v' ha hv'
        rw [hu₄.leaf] at hv'
        exact hnf a v' ha hv'
    · intro q' hq'
      rcases htaken₃ q' hq' with rfl | hq' | ⟨va, l, hl2, ht⟩
      · exact .inl List.mem_cons_self
      · exact .inl (List.mem_cons_of_mem _ hq')
      · exact .inr ⟨va, l, hl2, (ht₄ va l).trans ht⟩

end Turn

/-! ## A run of the loop -/

section Run

variable {m : Machine} {old new sz : Nat}

/-- A copy made from `m₁` on is one made from `m`, when `old` is untouched from `m` to `m₁` and
every page free in `m₁` was free in `m`. -/
theorem Copied.of_earlier {m₁ m' : Machine} {b : Nat} (h : Copied m₁ m' old new b)
    (hu : Untouched m m₁ old) (hf : ∀ q ∈ m₁.free, q ∈ m.free) (hb : b < MAXVA) :
    Copied m m' old new b := by
  unfold Copied at h ⊢
  rw [hu.leaf b] at h
  cases hv : m.leaf old b with
  | none =>
    rw [hv] at h
    exact h
  | some v =>
    rw [hv] at h
    obtain ⟨w, hw, hflags, hfree, hbytes⟩ := h
    refine ⟨w, hw, hflags, hf _ hfree, fun o ho => ?_⟩
    rw [hbytes o ho, hu.frames b v o hb hv ho]

/-- One turn of `uvmcopy`'s loop at a page-aligned `i < sz ≤ TRAMPOLINE`, with the pair apart,
the frames `new` maps below `i` private and no translation in `new` from `i` below `sz`. Either
`old` does not translate `i` and the loop goes on from `i + PGSIZE`; or `kalloc` or `mappages`
fails and `err` unmaps `new` below `i`; or page `i` of `new` is a copy `q`, taken from the free
list, of page `i` of `old` with its flags, nothing else of `new` changed, and the loop goes on from
`i + PGSIZE`. -/
theorem uvmcopyLoop_step (hsz : sz ≤ TRAMPOLINE) {i : Nat} (h : TwoTables m old new)
    (hp : Private m old new i) (hal : i % PGSIZE = 0) (hlt : i < sz)
    (hnone : ∀ b, i ≤ b → b < sz → m.leaf new b = none) :
    (m.leaf old i = none ∧ Private m old new (i + PGSIZE) ∧
      uvmcopyLoop old new sz i m = uvmcopyLoop old new sz (i + PGSIZE) m) ∨
    (∃ m', uvmcopyLoop old new sz i m = .ok (-1, m') ∧ TwoTables m' old new ∧
      Untouched m m' old ∧ (∀ b, b < sz → m'.leaf new b = none) ∧
      (∀ b v, b < i → m.leaf new b = some v → PTE2PA v ∈ m'.free) ∧
      (∀ q ∈ m.free, q ∈ m'.free ∨ ∃ va l, l ≤ 2 ∧ m'.table new va l = some q) ∧
      ∀ va l t, m.table new va l = some t → m'.table new va l = some t) ∨
    ∃ v q m₃, m.leaf old i = some v ∧ TwoTables m₃ old new ∧ Untouched m m₃ old ∧
      Private m₃ old new (i + PGSIZE) ∧ FramesKept m m₃ new ∧ (∀ q' ∈ m₃.free, q' ∈ m.free) ∧
      (∀ q' ∈ m.free, q' = q ∨ q' ∈ m₃.free ∨ ∃ va l, l ≤ 2 ∧ m₃.table new va l = some q') ∧
      (∀ va l t, m.table new va l = some t → m₃.table new va l = some t) ∧
      m₃.leaf new i = some (leafPte q (PTE_FLAGS v)) ∧ PTE2PA (leafPte q (PTE_FLAGS v)) = q ∧
      PTE_FLAGS (leafPte q (PTE_FLAGS v)) = PTE_FLAGS v ∧ q ∈ m.free ∧
      (∀ a, a < MAXVA → (a < i ∨ i + PGSIZE ≤ a) → m₃.leaf new a = m.leaf new a) ∧
      (∀ o, o < PGSIZE → m₃.mem (q + o) = m.mem (PTE2PA v + o)) ∧
      uvmcopyLoop old new sz i m = uvmcopyLoop old new sz (i + PGSIZE) m₃ := by
  have hi : i < TRAMPOLINE := by omega
  have hmax := lt_MAXVA_of_lt_TRAMPOLINE hi
  have hTM := TRAMPOLINE_lt_MAXVA
  have hnew_i : m.leaf new i = none := hnone i (le_refl i) hlt
  -- what `err` leaves when it unmaps below `i` a table that translated nothing from `i` below `sz`
  have hnone_err : ∀ m' : Machine, (∀ b, b < i → m'.leaf new b = none) →
      (∀ b, b < MAXVA → i ≤ b → m'.leaf new b = m.leaf new b) → ∀ b, b < sz → m'.leaf new b = none := by
    intro m' hbelow hsame b hb
    by_cases hbi : b < i
    · exact hbelow b hbi
    · rw [hsame b (by omega) (by omega)]
      exact hnone b (by omega) hb
  cases hl : m.leaf old i with
  | none =>
    -- `old` does not translate `i`: the turn is skipped
    left
    refine ⟨rfl, fun b w hb hw => ?_, uvmcopyLoop_skip hlt hmax hl⟩
    by_cases hbi : b < i
    · exact hp b w hbi hw
    · rw [Machine.leaf_of_page (page_eq_of_mem hal (by omega) hb), hnew_i] at hw
      cases hw
  | some v =>
    right
    cases hfree : m.free with
    | nil =>
      -- no free page: straight to `err`
      left
      rw [← hfree]
      obtain ⟨m', hrun, h', hu', hnone', hsame', hfreed', hsub', ht'⟩ := h.err hp hal (by omega)
      exact ⟨m', (uvmcopyLoop_nomem hlt hmax hl hfree).trans hrun, h', hu',
        hnone_err m' hnone' hsame', hfreed', fun q hq => .inl (hsub' q hq),
        fun va l t ht => (ht' va l).trans ht⟩
    | cons q rest =>
      -- the goal speaks of the free pages of `m` as a whole
      rw [← hfree]
      obtain ⟨r, m₃, hmap, hkept₃, hres⟩ := h.copy_turn hp hfree hal hi hl hnew_i
      rw [uvmcopyLoop_take hlt hmax hl hfree, hmap, ok_bind]
      rcases hres with ⟨rfl, h₃, hu₃, hp₃, hframe₃, hsub₃, htaken₃, hself, hpa, hflags, hqm,
          hother, hbytes⟩ | ⟨rfl, m₄, hkf, h₄, hu₄, hp₄, hl₄, ht₄, htaken₄⟩
      · -- `i` is copied to `q`
        right
        refine ⟨v, q, m₃, rfl, h₃, hu₃, hp₃, hframe₃, hsub₃, htaken₃, hkept₃, hself, hpa, hflags,
          hqm, fun a ha ha' => hother a ha (page_ne_of_not_mem hal ha'), hbytes, ?_⟩
        dsimp only
        rw [if_neg (by decide)]
      · -- `mappages` failed: `kfree(mem)`, then `err`
        left
        dsimp only
        rw [if_pos (by decide), hkf, ok_bind]
        obtain ⟨m', hrun, h', hu', hnone', hsame', hfreed', hsub', ht'⟩ := h₄.err hp₄ hal (by omega)
        refine ⟨m', hrun, h', hu₄.trans hu',
          hnone_err m' hnone' fun b hb hb' => (hsame' b hb hb').trans (hl₄ b),
          fun b w hb hw => hfreed' b w hb ((hl₄ b).trans hw), fun q' hq' => ?_, fun va l t ht => ?_⟩
        · rcases htaken₄ q' hq' with hq' | ⟨va, l, hl2, ht⟩
          · exact .inl (hsub' q' hq')
          · exact .inr ⟨va, l, hl2, (ht' va l).trans ht⟩
        · rw [ht', ht₄]
          exact hkept₃ va l t ht

/-- A run of `uvmcopy`'s loop from the page-aligned `i` on, below `sz ≤ TRAMPOLINE`, with the pair
apart, the frames `new` maps below `i` private and no translation in `new` from `i` below `sz`.
`old` stays untouched and the pair apart. Either it returns `0`: every page of `[i, sz)` of
`new` is a private copy of that page of `old`, and no other translation and no byte of a frame
of `new` changed. Or it returns `-1`: `new` translates nothing below `sz`, every frame it mapped
below `i` is free, every page free before is free or a table of `new`, and `new` keeps its
tables. -/
theorem uvmcopyLoop_run (hsz : sz ≤ TRAMPOLINE) (d : Nat) :
    ∀ (i : Nat) (m : Machine), sz - i = d → TwoTables m old new → Private m old new i →
      i % PGSIZE = 0 → (∀ b, i ≤ b → b < sz → m.leaf new b = none) →
      ∃ r m', uvmcopyLoop old new sz i m = .ok (r, m') ∧ TwoTables m' old new ∧
        Untouched m m' old ∧
        ((r = 0 ∧ (∀ b, b < MAXVA → (b < i ∨ PGROUNDUP sz ≤ b) → m'.leaf new b = m.leaf new b) ∧
            FramesKept m m' new ∧ ∀ b, i ≤ b → b < sz → Copied m m' old new b) ∨
          (r = -1 ∧ (∀ b, b < sz → m'.leaf new b = none) ∧
            (∀ b v, b < i → m.leaf new b = some v → PTE2PA v ∈ m'.free) ∧
            (∀ q ∈ m.free, q ∈ m'.free ∨ ∃ va l, l ≤ 2 ∧ m'.table new va l = some q) ∧
            ∀ va l t, m.table new va l = some t → m'.table new va l = some t)) := by
  -- induction on what is left below `sz`, one page a turn
  induction d using Nat.strong_induction_on with
  | _ d ih =>
  intro i m hd h hp hal hnone
  by_cases hlt : i < sz
  swap
  · -- past `sz`: done
    refine ⟨0, m, ?_, h, ⟨fun _ _ => rfl, fun _ => rfl, fun _ _ _ _ _ _ => rfl⟩,
      .inl ⟨rfl, fun _ _ _ => rfl, fun _ _ _ _ _ _ => rfl, fun b h1 h2 => by omega⟩⟩
    rw [uvmcopyLoop, if_neg hlt]
    rfl
  have hmax := lt_MAXVA_of_lt_TRAMPOLINE (by omega : i < TRAMPOLINE)
  have hTM := TRAMPOLINE_lt_MAXVA
  have hup := PGROUNDUP_ge_next hal hlt
  have hP : 0 < PGSIZE := by decide
  have hal' : (i + PGSIZE) % PGSIZE = 0 := by
    unfold PGSIZE at hal ⊢
    omega
  have hnew_i : m.leaf new i = none := hnone i (le_refl i) hlt
  rcases uvmcopyLoop_step hsz h hp hal hlt hnone with ⟨hl, hp', hturn⟩ |
    ⟨m', hrun, h', hu', hres⟩ |
    ⟨v, q, m₃, hl, h₃, hu₃, hp₃, hframe₃, hsub₃, htaken₃, hkept₃, hself, hpa, hflags, hqm, hother,
      hbytes, hturn⟩
  · -- `old` does not translate `i`: the rest of the loop, on the same memory
    obtain ⟨r, m', hrun, h', hu', hres⟩ := ih (sz - (i + PGSIZE)) (by omega) (i + PGSIZE) m rfl
      h hp' hal' fun b h1 h2 => hnone b (by omega) h2
    refine ⟨r, m', hturn.trans hrun, h', hu', ?_⟩
    rcases hres with ⟨rfl, hsame', hframe', hcopied'⟩ | ⟨rfl, hnone', hfreed', htaken', hkept'⟩
    · refine .inl ⟨rfl, fun b hb hb' => hsame' b hb (by omega), hframe', fun b h1 h2 => ?_⟩
      by_cases hb : b < i + PGSIZE
      · -- page `i`: translated by neither table
        have hpg := page_eq_of_mem hal h1 hb
        unfold Copied
        rw [Machine.leaf_of_page hpg, hl]
        show m'.leaf new b = none
        rw [hsame' b (by omega) (.inl hb), Machine.leaf_of_page hpg, hnew_i]
      · exact hcopied' b (by omega) h2
    · exact .inr ⟨rfl, hnone', fun b v hb h => hfreed' b v (by omega) h, htaken', hkept'⟩
  · -- the turn failed and `err` undid the copies
    exact ⟨-1, m', hrun, h', hu', .inr ⟨rfl, hres⟩⟩
  -- `i` is copied to `q`: the rest of the loop, from where nothing else changed
  have hnone₃ : ∀ b, i + PGSIZE ≤ b → b < sz → m₃.leaf new b = none :=
    fun b h1 h2 => (hother b (by omega) (.inr h1)).trans (hnone b (by omega) h2)
  obtain ⟨r', m', hrun, h', hu', hres'⟩ := ih (sz - (i + PGSIZE)) (by omega) (i + PGSIZE)
    m₃ rfl h₃ hp₃ hal' hnone₃
  refine ⟨r', m', hturn.trans hrun, h', hu₃.trans hu', ?_⟩
  rcases hres' with ⟨rfl, hsame', hframe', hcopied'⟩ | ⟨rfl, hnone', hfreed', htaken', hkept'⟩
  · refine .inl ⟨rfl, fun b hb hb' => ?_, fun a w o ha hw ho => ?_, fun b h1 h2 => ?_⟩
    · rw [hsame' b hb (by omega), hother b hb (by omega)]
    · -- a frame of `new` in `m` lies off page `i`, which had none
      have hai : a < i ∨ i + PGSIZE ≤ a := by
        by_contra hin
        rw [Machine.leaf_of_page (page_eq_of_mem hal (by omega) (by omega)), hnew_i] at hw
        cases hw
      rw [hframe' a w o ha ((hother a ha hai).trans hw) ho, hframe₃ a w o ha hw ho]
    · by_cases hb : b < i + PGSIZE
      · -- page `i`, translated to the copy `q`
        have hpg := page_eq_of_mem hal h1 hb
        unfold Copied
        rw [Machine.leaf_of_page hpg, hl]
        refine ⟨leafPte q (PTE_FLAGS v), ?_, hflags, ?_, fun o ho => ?_⟩
        · rw [hsame' b (by omega) (.inl hb), Machine.leaf_of_page hpg, hself]
        · rw [hpa]
          exact hqm
        · rw [hframe' i _ o hmax hself ho, hpa]
          exact hbytes o ho
      · exact (hcopied' b (by omega) h2).of_earlier hu₃ hsub₃ (by omega)
  · refine .inr ⟨rfl, hnone', fun b w hb hw => ?_, fun q' hq' => ?_,
      fun va l t ht => hkept' va l t (hkept₃ va l t ht)⟩
    · exact hfreed' b w (by omega) ((hother b (by omega) (.inl hb)).trans hw)
    · rcases htaken₃ q' hq' with rfl | hq' | ⟨va, l, hl2, ht⟩
      · -- the copy of this turn, which `err` freed
        have hq := hfreed' i _ (by omega) hself
        rw [hpa] at hq
        exact .inl hq
      · exact htaken' q' hq'
      · exact .inr ⟨va, l, hl2, hkept' va l q' ht⟩

/-- `uvmcopy(old, new, sz)` for `sz ≤ TRAMPOLINE`, with the pair apart and `new` translating
nothing below `sz`. `old` stays untouched and the pair apart. It returns `0`, every page of `new`
below `sz` a private copy of that page of `old` and `new`'s translations above kept; or `-1`,
`new` translating nothing below `sz` and every page that was free free again or a table of
`new`. -/
theorem uvmcopy_run (h : TwoTables m old new) (hsz : sz ≤ TRAMPOLINE)
    (hnone : ∀ b, b < sz → m.leaf new b = none) :
    ∃ r m', uvmcopy m old new sz = .ok (r, m') ∧ TwoTables m' old new ∧ Untouched m m' old ∧
      ((r = 0 ∧ (∀ b, b < sz → Copied m m' old new b) ∧
          ∀ b, b < MAXVA → PGROUNDUP sz ≤ b → m'.leaf new b = m.leaf new b) ∨
        (r = -1 ∧ (∀ b, b < sz → m'.leaf new b = none) ∧
          ∀ q ∈ m.free, q ∈ m'.free ∨ ∃ va l, l ≤ 2 ∧ m'.table new va l = some q)) := by
  -- the loop from page `0`, where no frame is mapped yet
  have hp : Private m old new 0 := fun b _ hb => absurd hb (Nat.not_lt_zero b)
  obtain ⟨r, m', hrun, h', hu', hres⟩ :=
    uvmcopyLoop_run hsz (sz - 0) 0 m rfl h hp (by decide) fun b _ hb => hnone b hb
  refine ⟨r, m', hrun, h', hu', ?_⟩
  rcases hres with ⟨rfl, hsame, -, hcopied⟩ | ⟨rfl, hnone', -, htaken, -⟩
  · exact .inl ⟨rfl, fun b hb => hcopied b (Nat.zero_le b) hb,
      fun b hb hb' => hsame b hb (.inr hb')⟩
  · exact .inr ⟨rfl, hnone', htaken⟩

/-- A root whose entries are all invalid is the only table on any path. -/
theorem Machine.table_of_root_empty {pt : Nat} (hroot : ∀ va, m.next va 2 pt = none) {va l t : Nat}
    (h : m.table pt va l = some t) : t = pt := by
  match l with
  | 0 =>
    simp only [Machine.table_zero, Machine.table_one, hroot, Option.bind_none] at h
    cases h
  | 1 =>
    simp only [Machine.table_one, hroot] at h
    cases h
  | l + 2 => exact (Option.some.inj h).symm

/-- A root with no valid entry that is neither a table nor a frame of `old` is apart from it:
the pair `uvmcopy` starts from, with the child's table fresh from `uvmcreate`. -/
theorem TwoTables.of_new_empty (hWo : Wf m old) (hWn : Wf m new)
    (hn : ∀ va, m.next va 2 new = none) (hnt : ∀ va l, l ≤ 2 → m.table old va l ≠ some new)
    (hnf : ∀ va v, va < MAXVA → m.leaf old va = some v → PTE2PA v ≠ new) :
    TwoTables m old new := by
  refine ⟨hWo, hWn, ?_, ?_⟩
  · intro va l t va' l' _ hl' hnew hold
    rw [Machine.table_of_root_empty hn hnew] at hold
    exact hnt va' l' hl' hold
  · intro va l t va' v _ hnew ha hv
    rw [Machine.table_of_root_empty hn hnew]
    exact hnf va' v ha hv

/-- Zeroed memory with two empty roots, `0x87000000` and `0x87001000`, and six free pages. -/
def forkMachine : Machine :=
  { mem := fun _ => 0, kend := 0x80040000,
    free := [0x87002000, 0x87003000, 0x87004000, 0x87005000, 0x87006000, 0x87007000] }

theorem forkMachine_root_empty (pt va : Nat) : forkMachine.next va 2 pt = none := by
  have hz : forkMachine.pte (pt + 8 * PX 2 va) = 0 := loadLE_eq_zero fun _ _ _ => rfl
  rw [Machine.next, hz]
  rfl

/-- The page `forkMachine` gives the parent's page 0 as `vmfault` does: `kalloc` of `0x87002000`,
zeroed. -/
def parentPage : Machine :=
  ({ forkMachine with free := [0x87003000, 0x87004000, 0x87005000, 0x87006000, 0x87007000] }.memset
    0x87002000 5 PGSIZE).memset 0x87002000 0 PGSIZE

/-- `forkMachine` once the parent at `0x87000000` has its page 0 mapped, user, readable and
writable, as `vmfault` maps it. -/
def parentMachine : Machine :=
  match mappages parentPage 0x87000000 0 PGSIZE 0x87002000 (PTE_W ||| PTE_U ||| PTE_R) with
  | .ok (_, m) => m
  | .error _ => forkMachine

/-- `fork` of a parent with one page: `uvmcopy` copies it into the child's empty table. -/
theorem uvmcopy_run_parentMachine :
    TwoTables parentMachine 0x87000000 0x87001000 ∧ PGSIZE ≤ TRAMPOLINE ∧
      (∀ b, b < PGSIZE → parentMachine.leaf 0x87001000 b = none) ∧
      (∃ v, parentMachine.leaf 0x87000000 0 = some v) ∧
      ∃ r m', uvmcopy parentMachine 0x87000000 0x87001000 PGSIZE = .ok (r, m') ∧ r = 0 ∧
        TwoTables m' 0x87000000 0x87001000 ∧ Untouched parentMachine m' 0x87000000 ∧
        ((r = 0 ∧ (∀ b, b < PGSIZE → Copied parentMachine m' 0x87000000 0x87001000 b) ∧
            ∀ b, b < MAXVA → PGROUNDUP PGSIZE ≤ b →
              m'.leaf 0x87001000 b = parentMachine.leaf 0x87001000 b) ∨
          (r = -1 ∧ (∀ b, b < PGSIZE → m'.leaf 0x87001000 b = none) ∧
            ∀ q ∈ parentMachine.free, q ∈ m'.free ∨
              ∃ va l, l ≤ 2 ∧ m'.table 0x87001000 va l = some q)) := by
  have hWo : Wf forkMachine 0x87000000 :=
    Wf.of_root_empty (by decide) (by decide) (forkMachine_root_empty _) (by decide) (by decide)
      (by decide) (by decide) (by decide)
  -- the parent's fault: a zeroed page, then `mappages` into the parent's table alone
  obtain ⟨hW₂, ht₂, -, -, hmem₂⟩ : Wf parentPage 0x87000000 ∧
      (∀ va l, parentPage.table 0x87000000 va l = forkMachine.table 0x87000000 va l) ∧ _ ∧ _ ∧
      ∀ i, ¬ (0x87002000 ≤ i ∧ i < 0x87002000 + PGSIZE) → parentPage.mem i = forkMachine.mem i :=
    hWo.take_zeroed (q := 0x87002000) rfl
  have hfree₂ : parentPage.free = [0x87003000, 0x87004000, 0x87005000, 0x87006000, 0x87007000] :=
    rfl
  have htab₂ : ∀ va l t, parentPage.table 0x87000000 va l = some t → t = 0x87000000 := by
    intro va l t ht
    rw [ht₂] at ht
    exact Machine.table_of_root_empty (forkMachine_root_empty _) ht
  obtain ⟨r₃, m₃, hmap, hg, -, -, hsub, -, -, hres⟩ :=
    @Wf.take_map forkMachine 0x87000000 hWo 0x87002000 _ rfl parentPage hfree₂ rfl hmem₂ 0
      (PTE_W ||| PTE_U ||| PTE_R) (by decide) (by decide) (by decide)
      (Machine.leaf_of_root_empty (forkMachine_root_empty _) 0)
  have hpm : parentMachine = m₃ := by
    unfold parentMachine
    rw [hmap]
  obtain ⟨-, hW₃, hself, hpa, hother, -⟩ | ⟨-, hshort, -⟩ := hres
  swap
  · exact absurd hshort (by decide)
  -- the child's root lies off the parent's tables and off the free pages, so it stays empty
  have hoff : ∀ i, 0x87001000 ≤ i → i < 0x87001000 + PGSIZE →
      m₃.mem i = forkMachine.mem i := by
    intro i h1 h2
    obtain ⟨hnt, hnf⟩ := hW₂.tree.off_page (p := 0x87001000) (by decide)
      (fun va l t _ ht he => absurd ((htab₂ va l t ht).symm.trans he) (by decide))
      (by rw [hfree₂]; decide) ⟨h1, h2⟩
    rw [hg.mem i hnt hnf]
    exact hmem₂ i (by unfold PGSIZE at h2 ⊢; omega)
  have hroot : ∀ va, m₃.next va 2 0x87001000 = none := by
    intro va
    have hpg := entry_mem_page 0x87001000 2 va
    have hz : m₃.pte (0x87001000 + 8 * PX 2 va) = forkMachine.pte (0x87001000 + 8 * PX 2 va) :=
      Machine.pte_congr fun i h1 h2 => hoff i (by omega) (by omega)
    rw [Machine.next, hz]
    exact forkMachine_root_empty _ va
  have hnfree : ∀ q ∈ m₃.free, q ≠ 0x87001000 := by
    intro q hq he
    have := hsub q hq
    rw [he] at this
    exact absurd this (by decide)
  have hWn : Wf m₃ 0x87001000 :=
    Wf.of_root_empty (by decide) (fun h => hnfree _ h rfl) hroot hW₃.tree.free_aligned
      hW₃.tree.free_lt hW₃.tree.free_nodup hW₃.kend_pos hW₃.free_ge
  have h : TwoTables m₃ 0x87000000 0x87001000 := by
    refine TwoTables.of_new_empty hW₃ hWn hroot (fun va l _ ht => ?_) fun va v _ hv => ?_
    · -- a table of the parent was its root or a free page
      rcases hg.table va l _ ht with ht | hfree
      · exact absurd (htab₂ va l _ ht) (by decide)
      · rw [hfree₂] at hfree
        exact absurd hfree (by decide)
    · -- the parent's one frame is the page it faulted in
      by_cases hp : va / PGSIZE = 0 / PGSIZE
      · rw [Machine.leaf_of_page hp, hself] at hv
        cases hv
        rw [hpa]
        decide
      · rw [hother va (by omega) hp, Machine.leaf_of_root_empty (forkMachine_root_empty _)] at hv
        cases hv
  rw [hpm]
  have hnone : ∀ b, b < PGSIZE → m₃.leaf 0x87001000 b = none :=
    fun b _ => Machine.leaf_of_root_empty hroot b
  obtain ⟨r, m', hrun, hrest⟩ := uvmcopy_run h (by decide) hnone
  -- and the copy succeeds
  have hr : (uvmcopy parentMachine 0x87000000 0x87001000 PGSIZE).map Prod.fst = .ok 0 := by
    decide +kernel
  rw [hpm, hrun] at hr
  exact ⟨h, by decide, hnone, ⟨_, hself⟩, r, m', hrun, Except.ok.inj hr, hrest⟩

end Run

end Xv6.Vm
