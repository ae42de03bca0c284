import Xv6.Vm.Fault

/-!
# Xv6.Vm.Uvm — growing, shrinking and copying user memory

`uvmalloc` maps a fresh zeroed page for each page from `PGROUNDUP(oldsz)` below `newsz`. When
`kalloc` or `mappages` fails it gives the failing page back and calls `uvmdealloc`, which
`uvmunmap`s and frees every page the call mapped. `uvmcopy` does the same for `fork`: a private
copy of each mapped page of the parent below `sz`, and on failure `uvmunmap` of what it copied.
`uvmclear` takes `PTE_U` off the guard page that `exec` puts below the stack.

Over `Wf` (`Xv6.Vm.Fault`):

* clearing a leaf entry keeps the memory well formed (`Wf.unmap`), and so does `uvmunmap`'s turn,
  which gives the frame back to `kfree` before it clears the entry (`Wf.unmap_free`); a run of
  `uvmunmap` over pages below `TRAMPOLINE` unmaps each of them and frees its frame
  (`uvmunmapLoop_free`, `uvmdealloc_range`);
* a run of `uvmalloc`'s loop maps every page to a zeroed page that was free, or fails having
  unmapped every page it mapped and freed every frame it took (`uvmallocLoop_run`).
-/

namespace Xv6.Vm

open Xv6.Lib

/-! ## The functions -/

/-- The loop of `uvmunmap(pagetable, va, npages, do_free)`, `npages` pages from `a` on. A page
whose leaf entry is valid loses it, and with `do_free` its frame first goes back to `kfree`. -/
def uvmunmapLoop (pt : Nat) (doFree : Bool) : (npages a : Nat) → Machine → Except String Machine
  | 0, _, m => pure m
  | npages + 1, a, m => do
    let (pte, m) ← walk m pt a false
    match pte with
    -- leaf page table entry allocated?
    | none => uvmunmapLoop pt doFree npages (a + PGSIZE) m
    | some pte =>
      -- has physical page been allocated?
      if m.pte pte &&& PTE_V = 0 then uvmunmapLoop pt doFree npages (a + PGSIZE) m
      else do
        let m ← if doFree then kfree m (PTE2PA (m.pte pte)) else pure m
        uvmunmapLoop pt doFree npages (a + PGSIZE) (m.setPte pte 0)

/-- `uvmunmap(pagetable, va, npages, do_free)`. -/
def uvmunmap (m : Machine) (pt va npages : Nat) (doFree : Bool) : Except String Machine :=
  if va % PGSIZE ≠ 0 then throw "uvmunmap: not aligned"
  else uvmunmapLoop pt doFree npages va m

/-- `uvmdealloc(pagetable, oldsz, newsz)`: the new size. -/
def uvmdealloc (m : Machine) (pt oldsz newsz : Nat) : Except String (Nat × Machine) :=
  if newsz ≥ oldsz then pure (oldsz, m)
  else if PGROUNDUP newsz < PGROUNDUP oldsz then do
    let npages := (PGROUNDUP oldsz - PGROUNDUP newsz) / PGSIZE
    let m ← uvmunmap m pt (PGROUNDUP newsz) npages true
    pure (newsz, m)
  else pure (newsz, m)

/-- The loop of `uvmalloc` from `a` on, with `oldsz` already rounded up: the new size, or `0` after
`uvmdealloc(pagetable, a, oldsz)` undid the pages mapped so far. -/
def uvmallocLoop (pt oldsz newsz xperm a : Nat) (m : Machine) : Except String (Nat × Machine) :=
  if a < newsz then
    match kalloc m with
    | (none, m) => do
      let (_, m) ← uvmdealloc m pt a oldsz
      pure (0, m)
    | (some mem, m) => do
      let m := m.memset mem 0 PGSIZE
      let (r, m) ← mappages m pt a PGSIZE mem (PTE_R ||| PTE_U ||| xperm)
      if r ≠ 0 then
        let m ← kfree m mem
        let (_, m) ← uvmdealloc m pt a oldsz
        pure (0, m)
      else uvmallocLoop pt oldsz newsz xperm (a + PGSIZE) m
  else pure (newsz, m)
termination_by newsz - a
decreasing_by
  unfold PGSIZE
  omega

/-- `uvmalloc(pagetable, oldsz, newsz, xperm)`: the new size, or `0` on error. -/
def uvmalloc (m : Machine) (pt oldsz newsz xperm : Nat) : Except String (Nat × Machine) :=
  if newsz < oldsz then pure (oldsz, m)
  else uvmallocLoop pt (PGROUNDUP oldsz) newsz xperm (PGROUNDUP oldsz) m

/-- The `err` label of `uvmcopy`: unmap and free the pages copied below `i`, and return `-1`. -/
def uvmcopyErr (new i : Nat) (m : Machine) : Except String (Int × Machine) := do
  let m ← uvmunmap m new 0 (i / PGSIZE) true
  pure (-1, m)

/-- The loop of `uvmcopy(old, new, sz)` from `i` on. -/
def uvmcopyLoop (old new sz i : Nat) (m : Machine) : Except String (Int × Machine) :=
  if i < sz then do
    let (pte, m) ← walk m old i false
    match pte with
    -- page table entry hasn't been allocated
    | none => uvmcopyLoop old new sz (i + PGSIZE) m
    | some pte =>
      -- physical page hasn't been allocated
      if m.pte pte &&& PTE_V = 0 then uvmcopyLoop old new sz (i + PGSIZE) m
      else
        let pa := PTE2PA (m.pte pte)
        let flags := PTE_FLAGS (m.pte pte)
        match kalloc m with
        | (none, m) => uvmcopyErr new i m
        | (some mem, m) => do
          -- `memmove(mem, (char*)pa, PGSIZE)`
          let m := { m with mem := copyBytes m.mem mem (fun j => m.mem (pa + j)) PGSIZE }
          let (r, m) ← mappages m new i PGSIZE mem flags
          if r ≠ 0 then do
            let m ← kfree m mem
            uvmcopyErr new i m
          else uvmcopyLoop old new sz (i + PGSIZE) m
  else pure (0, m)
termination_by sz - i
decreasing_by
  all_goals
    unfold PGSIZE
    omega

/-- `uvmcopy(old, new, sz)`: `0`, or `-1` on failure. -/
def uvmcopy (m : Machine) (old new sz : Nat) : Except String (Int × Machine) :=
  uvmcopyLoop old new sz 0 m

/-- `uvmclear(pagetable, va)`: `*pte &= ~PTE_U` on `va`'s leaf entry, with `~PTE_U` the 64-bit
complement. -/
def uvmclear (m : Machine) (pt va : Nat) : Except String Machine := do
  let (pte, m) ← walk m pt va false
  match pte with
  | none => throw "uvmclear"
  | some pte => pure (m.setPte pte (m.pte pte &&& (2 ^ 64 - 1 - PTE_U)))

/-! ## Unmapping -/

section Unmap

variable {m : Machine} {pt : Nat}

/-- A store to an entry and a `memset` apart from it commute. -/
theorem Machine.setPte_memset_comm (m : Machine) {e v q n : Nat} {c : UInt8}
    (h : e + 8 ≤ q ∨ q + n ≤ e) :
    ((m.memset q c n).setPte e v).mem = ((m.setPte e v).memset q c n).mem := by
  funext i
  show storeLE (copyBytes m.mem q (fun _ => c) n) e v 8 i =
    copyBytes (storeLE m.mem e v 8) q (fun _ => c) n i
  by_cases hi : e ≤ i ∧ i < e + 8
  · have hout : i < q ∨ q + n ≤ i := by omega
    rw [storeLE_of_mem hi.1 hi.2]
    rcases hout with hout | hout
    · rw [copyBytes_of_lt _ _ _ hout, storeLE_of_mem hi.1 hi.2]
    · rw [copyBytes_of_ge _ _ hout, storeLE_of_mem hi.1 hi.2]
  · rw [storeLE_of_not_mem (by omega)]
    by_cases hq : q ≤ i ∧ i < q + n
    · rw [copyBytes_of_mem _ _ hq.1 hq.2, copyBytes_of_mem _ _ hq.1 hq.2]
    · have hout : i < q ∨ q + n ≤ i := by omega
      rcases hout with hout | hout
      · rw [copyBytes_of_lt _ _ _ hout, copyBytes_of_lt _ _ _ hout, storeLE_of_not_mem (by omega)]
      · rw [copyBytes_of_ge _ _ hout, copyBytes_of_ge _ _ hout, storeLE_of_not_mem (by omega)]

/-- Clearing the leaf entry of a page keeps the memory well formed: the page loses its
translation, and the tables and every other translation stay. -/
theorem Wf.unmap (hW : Wf m pt) {a e : Nat} (ha : a < MAXVA) (hs : m.slot pt a = some e) :
    Wf (m.setPte e 0) pt ∧ (m.setPte e 0).leaf pt a = none ∧
      (∀ a', a' < MAXVA → a' / PGSIZE ≠ a / PGSIZE → (m.setPte e 0).leaf pt a' = m.leaf pt a') ∧
      ∀ va l, (m.setPte e 0).table pt va l = m.table pt va l := by
  have ht := table_setPte_slot hW.tree hs 0
  have hnone := leaf_setPte_zero hW.tree hs
  have hother := leaf_setPte_other hW.tree ha hs 0
  refine ⟨hW.of_grows (setPte_slot_grows hW.tree hs) (hW.tree.congr ht rfl) ?_, hnone, hother, ht⟩
  -- every translation left is one of `m`
  intro va v hva h
  by_cases hp : va / PGSIZE = a / PGSIZE
  · rw [Machine.leaf_of_page hp, hnone] at h
    cases h
  · rwa [hother va hva hp] at h

/-- The turn of `uvmunmap` with `do_free` on a mapped page below `TRAMPOLINE`: `kfree` of its
frame, then `*pte = 0`. The memory stays well formed, the page loses its translation and its
frame is free; the tables, every other translation and every byte of another frame stay. -/
theorem Wf.unmap_free (hW : Wf m pt) {a e v : Nat} (ha : a < TRAMPOLINE) (hs : m.slot pt a = some e)
    (hl : m.leaf pt a = some v) :
    ∃ m₁, Vm.kfree m (PTE2PA v) = .ok m₁ ∧ Wf (m₁.setPte e 0) pt ∧
      (m₁.setPte e 0).leaf pt a = none ∧
      (∀ a', a' < MAXVA → a' / PGSIZE ≠ a / PGSIZE → (m₁.setPte e 0).leaf pt a' = m.leaf pt a') ∧
      (∀ va l, (m₁.setPte e 0).table pt va l = m.table pt va l) ∧
      (m₁.setPte e 0).free = PTE2PA v :: m.free ∧
      ∀ a' v' o, a' < MAXVA → a' / PGSIZE ≠ a / PGSIZE → m.leaf pt a' = some v' → o < PGSIZE →
        (m₁.setPte e 0).mem (PTE2PA v' + o) = m.mem (PTE2PA v' + o) := by
  have hmax := lt_MAXVA_of_lt_TRAMPOLINE ha
  have hal := PTE2PA_aligned v
  have hge := hW.frame_ge a v ha hl
  have hlt := hW.frame_lt a v ha hl
  refine ⟨_, kfree_ok hal hge hlt, ?_⟩
  -- the entry lies in a level-0 table, apart from the frame: the two writes commute
  obtain ⟨t0, h0, rfl⟩ := Machine.slot_eq_some.mp hs
  have hpg := entry_mem_page t0 0 a
  have hapart : t0 + 8 * PX 0 a + 8 ≤ PTE2PA v ∨ PTE2PA v + PGSIZE ≤ t0 + 8 * PX 0 a := by
    have hne := hW.frame_not_table a v a 0 t0 hmax hl (by decide) h0
    have hal0 := hW.tree.aligned a 0 t0 h0
    unfold PGSIZE at hal hal0 hpg ⊢
    omega
  have heq : ({ m.memset (PTE2PA v) 1 PGSIZE with free := PTE2PA v :: m.free } : Machine).setPte
      (t0 + 8 * PX 0 a) 0 =
      { (m.setPte (t0 + 8 * PX 0 a) 0).memset (PTE2PA v) 1 PGSIZE with
        free := PTE2PA v :: (m.setPte (t0 + 8 * PX 0 a) 0).free } := by
    have hmem := Machine.setPte_memset_comm m (v := 0) (c := 1) hapart
    simp only [Machine.setPte, Machine.memset] at hmem ⊢
    rw [hmem]
  rw [heq]
  -- unmapped first, the frame is no frame any more, and `kfree` of it keeps the memory well formed
  obtain ⟨hW₁, hnone, hother, ht₁⟩ := hW.unmap hmax hs
  have hnf : PTE2PA v ∉ (m.setPte (t0 + 8 * PX 0 a) 0).free := hW.frame_not_free a v hmax hl
  have hnt : ∀ va l t, l ≤ 2 → (m.setPte (t0 + 8 * PX 0 a) 0).table pt va l = some t →
      t ≠ PTE2PA v :=
    fun va l t hl2 h he => hW.frame_not_table a v va l t hmax hl hl2 ((ht₁ va l) ▸ h) he.symm
  have hfr : ∀ a' v', a' < MAXVA → (m.setPte (t0 + 8 * PX 0 a) 0).leaf pt a' = some v' →
      PTE2PA v' ≠ PTE2PA v := by
    intro a' v' ha' h he
    by_cases hp : a' / PGSIZE = a / PGSIZE
    · rw [Machine.leaf_of_page hp, hnone] at h
      cases h
    · rw [hother a' ha' hp] at h
      exact hp (hW.frame_inj a' a v' v ha' hmax h hl he)
  obtain ⟨hW₂, ht₂, hl₂⟩ := hW₁.kfree hal hge hlt hnf hnt hfr
  refine ⟨hW₂, (hl₂ a).trans hnone, fun a' ha' hne => (hl₂ a').trans (hother a' ha' hne),
    fun va l => (ht₂ va l).trans (ht₁ va l), rfl, fun a' v' o ha' hne h ho => ?_⟩
  -- another frame is neither the freed page nor a table page
  have hne' : PTE2PA v' ≠ PTE2PA v := fun he => hne (hW.frame_inj a' a v' v ha' hmax h hl he)
  have hoff := pages_apart (PTE2PA_aligned v') hal hne' (i := PTE2PA v' + o) ⟨by omega, by omega⟩
  have hnt' := hW.frame_not_table a' v' a 0 t0 ha' h (by decide) h0
  have hal' := PTE2PA_aligned v'
  have hal0 := hW.tree.aligned a 0 t0 h0
  show (Machine.memset _ _ _ _).mem _ = _
  rw [Machine.mem_memset_of_apart (by omega), Machine.mem_setPte_of_apart (by
    unfold PGSIZE at hal' hal0 hpg ho
    omega)]

/-- An address lies on the page of an aligned `a` when it lies in `[a, a + PGSIZE)`. -/
theorem page_eq_of_mem {a b : Nat} (hal : a % PGSIZE = 0) (h1 : a ≤ b) (h2 : b < a + PGSIZE) :
    b / PGSIZE = a / PGSIZE := by
  unfold PGSIZE at hal h2 ⊢
  omega

theorem page_ne_of_not_mem {a b : Nat} (hal : a % PGSIZE = 0) (h : b < a ∨ a + PGSIZE ≤ b) :
    b / PGSIZE ≠ a / PGSIZE := by
  unfold PGSIZE at hal h ⊢
  omega

/-- `uvmunmap` skips a page with no translation. -/
theorem uvmunmapLoop_skip {doFree : Bool} {npages a : Nat} (ha : a < MAXVA)
    (hl : m.leaf pt a = none) :
    uvmunmapLoop pt doFree (npages + 1) a m = uvmunmapLoop pt doFree npages (a + PGSIZE) m := by
  rw [uvmunmapLoop, walk_false ha, ok_bind]
  dsimp only
  cases hs : m.slot pt a with
  | none => rfl
  | some e =>
    -- the entry is there but invalid
    have hinv : m.pte e &&& PTE_V = 0 := by
      by_contra hv
      have h := Machine.leaf_eq_some.mpr ⟨e, hs, hv, rfl⟩
      rw [hl] at h
      cases h
    dsimp only
    rw [if_pos hinv]

/-- `uvmunmap` with `do_free` on a mapped page: `kfree` of the frame, then `*pte = 0`. -/
theorem uvmunmapLoop_unmap {npages a e v : Nat} (ha : a < MAXVA) (hs : m.slot pt a = some e)
    (hl : m.leaf pt a = some v) :
    uvmunmapLoop pt true (npages + 1) a m = (do
      let m₁ ← Vm.kfree m (PTE2PA v)
      uvmunmapLoop pt true npages (a + PGSIZE) (m₁.setPte e 0)) := by
  obtain ⟨e', hs', hv, rfl⟩ := Machine.leaf_eq_some.mp hl
  rw [hs] at hs'
  cases hs'
  rw [uvmunmapLoop, walk_false ha, ok_bind]
  dsimp only
  rw [hs]
  dsimp only
  rw [if_neg hv]
  rfl

/-- A run of `uvmunmap` with `do_free` over the pages of `[a, a + npages * PGSIZE)`, below
`TRAMPOLINE`: every page of the range loses its translation and the frame it had is free; the
memory stays well formed, with the tables, the free pages, every translation off the range and
every byte of a frame off the range as they were. -/
theorem uvmunmapLoop_free {pt : Nat} (npages : Nat) :
    ∀ (a : Nat) (m : Machine), Wf m pt → a % PGSIZE = 0 → a + npages * PGSIZE ≤ TRAMPOLINE →
      ∃ m', uvmunmapLoop pt true npages a m = .ok m' ∧ Wf m' pt ∧
        (∀ b, a ≤ b → b < a + npages * PGSIZE → m'.leaf pt b = none) ∧
        (∀ b, b < MAXVA → (b < a ∨ a + npages * PGSIZE ≤ b) → m'.leaf pt b = m.leaf pt b) ∧
        (∀ b v, a ≤ b → b < a + npages * PGSIZE → m.leaf pt b = some v → PTE2PA v ∈ m'.free) ∧
        (∀ q ∈ m.free, q ∈ m'.free) ∧ (∀ va l, m'.table pt va l = m.table pt va l) ∧
        (∀ b v o, b < MAXVA → (b < a ∨ a + npages * PGSIZE ≤ b) → m.leaf pt b = some v →
          o < PGSIZE → m'.mem (PTE2PA v + o) = m.mem (PTE2PA v + o)) ∧
        -- only the tables and the frames of the range are written
        (∀ i, (∀ l ≤ 2, ¬ m.InTable pt l i) →
          (∀ b v, a ≤ b → b < a + npages * PGSIZE → m.leaf pt b = some v →
            ¬ (PTE2PA v ≤ i ∧ i < PTE2PA v + PGSIZE)) → m'.mem i = m.mem i) ∧
        -- and a page is free after only if it was before or is a frame of the range
        (∀ q ∈ m'.free, q ∈ m.free ∨
          ∃ b v, a ≤ b ∧ b < a + npages * PGSIZE ∧ m.leaf pt b = some v ∧ q = PTE2PA v) ∧
        m'.kend = m.kend := by
  -- induction on the pages left, one page a turn
  induction npages with
  | zero =>
    intro a m hW _ _
    exact ⟨m, rfl, hW, fun b h1 h2 => by omega, fun _ _ _ => rfl, fun b v h1 h2 => by omega,
      fun _ h => h, fun _ _ => rfl, fun _ _ _ _ _ _ _ => rfl, fun _ _ _ => rfl, fun _ h => .inl h,
      rfl⟩
  | succ npages ih =>
    intro a m hW hal hend
    have hsplit : (npages + 1) * PGSIZE = npages * PGSIZE + PGSIZE := Nat.succ_mul npages PGSIZE
    have hP : 0 < PGSIZE := by decide
    have hTM := TRAMPOLINE_lt_MAXVA
    have ha : a < TRAMPOLINE := by omega
    have hmax := lt_MAXVA_of_lt_TRAMPOLINE ha
    have hal' : (a + PGSIZE) % PGSIZE = 0 := by
      unfold PGSIZE at hal ⊢
      omega
    -- an address of the range lies on this page or on the rest; one off the range on neither
    have hin : ∀ b, a ≤ b → b < a + (npages + 1) * PGSIZE →
        (b < a + PGSIZE ∧ b / PGSIZE = a / PGSIZE) ∨
          (a + PGSIZE ≤ b ∧ b < a + PGSIZE + npages * PGSIZE) := by
      intro b h1 h2
      by_cases hb : b < a + PGSIZE
      · exact .inl ⟨hb, page_eq_of_mem hal h1 hb⟩
      · exact .inr ⟨by omega, by omega⟩
    have hout : ∀ b, b < a ∨ a + (npages + 1) * PGSIZE ≤ b →
        b / PGSIZE ≠ a / PGSIZE ∧ (b < a + PGSIZE ∨ a + PGSIZE + npages * PGSIZE ≤ b) :=
      fun b hb => ⟨page_ne_of_not_mem hal (by omega), by omega⟩
    cases hl : m.leaf pt a with
    | none =>
      -- nothing mapped here: the turn is skipped
      obtain ⟨m', hrun, hW', hnone', hsame', hfreed', hsub', ht', hframe', hfoot', hnew', hk'⟩ :=
        ih (a + PGSIZE) m hW hal' (by omega)
      refine ⟨m', (uvmunmapLoop_skip hmax hl).trans hrun, hW', fun b h1 h2 => ?_,
        fun b hb hb' => hsame' b hb (hout b hb').2, fun b v h1 h2 h => ?_, hsub', ht',
        fun b v o hb hb' => hframe' b v o hb (hout b hb').2,
        fun i hi hf => hfoot' i hi fun b v h1 h2 => hf b v (by omega) (by omega), fun q hq => ?_,
        hk'⟩
      · rcases hin b h1 h2 with ⟨hb, hp⟩ | ⟨hb1, hb2⟩
        · rw [hsame' b (by omega) (.inl hb), Machine.leaf_of_page hp, hl]
        · exact hnone' b hb1 hb2
      · rcases hin b h1 h2 with ⟨-, hp⟩ | ⟨hb1, hb2⟩
        · rw [Machine.leaf_of_page hp, hl] at h
          cases h
        · exact hfreed' b v hb1 hb2 h
      · rcases hnew' q hq with hq | ⟨b, v, h1, h2, h, rfl⟩
        · exact .inl hq
        · exact .inr ⟨b, v, by omega, by omega, h, rfl⟩
    | some v =>
      -- a mapped page: its frame goes back, then its entry is cleared
      obtain ⟨e, hs, -, -⟩ := Machine.leaf_eq_some.mp hl
      obtain ⟨m₁, hk, hW₁, hnone₁, hother₁, ht₁, hfree₁, hframe₁⟩ := hW.unmap_free ha hs hl
      have hm₁ : m₁ = { m.memset (PTE2PA v) 1 PGSIZE with free := PTE2PA v :: m.free } := by
        rw [kfree_ok (PTE2PA_aligned v) (hW.frame_ge a v ha hl) (hW.frame_lt a v ha hl)] at hk
        cases hk
        rfl
      obtain ⟨m', hrun, hW', hnone', hsame', hfreed', hsub', ht', hframe', hfoot', hnew', hk'⟩ :=
        ih (a + PGSIZE) (m₁.setPte e 0) hW₁ hal' (by omega)
      refine ⟨m', ?_, hW', fun b h1 h2 => ?_, fun b hb hb' => ?_, fun b v' h1 h2 h => ?_,
        fun q hq => hsub' q (hfree₁ ▸ List.mem_cons_of_mem _ hq),
        fun va l => (ht' va l).trans (ht₁ va l), fun b v' o hb hb' h ho => ?_, fun i hi hf => ?_,
        fun q hq => ?_, by rw [hk', hm₁]; rfl⟩
      · rw [uvmunmapLoop_unmap hmax hs hl, hk, ok_bind]
        exact hrun
      · rcases hin b h1 h2 with ⟨hb, hp⟩ | ⟨hb1, hb2⟩
        · rw [hsame' b (by omega) (.inl hb), Machine.leaf_of_page hp, hnone₁]
        · exact hnone' b hb1 hb2
      · obtain ⟨hp, hb''⟩ := hout b hb'
        rw [hsame' b hb hb'', hother₁ b hb hp]
      · rcases hin b h1 h2 with ⟨-, hp⟩ | ⟨hb1, hb2⟩
        · -- the frame of this page went back in this turn
          rw [Machine.leaf_of_page hp, hl] at h
          cases h
          exact hsub' _ (hfree₁ ▸ List.mem_cons_self)
        · have hp : b / PGSIZE ≠ a / PGSIZE := page_ne_of_not_mem hal (.inr hb1)
          exact hfreed' b v' hb1 hb2 ((hother₁ b (by omega) hp).trans h)
      · obtain ⟨hp, hb''⟩ := hout b hb'
        rw [hframe' b v' o hb hb'' ((hother₁ b hb hp).trans h) ho, hframe₁ b v' o hb hp h ho]
      · -- off the tables and this page's frame, neither `kfree` nor `*pte = 0` wrote `i`
        have hi₂ : ∀ l ≤ 2, ¬ (m₁.setPte e 0).InTable pt l i := by
          intro l hl ⟨va, t, ht, hin⟩
          exact hi l hl ⟨va, t, (ht₁ va l) ▸ ht, hin⟩
        rw [hfoot' i hi₂ fun b v' h1 h2 h => hf b v' (by omega) (by omega)
          ((hother₁ b (by omega) (page_ne_of_not_mem hal (.inr h1))).symm.trans h)]
        obtain ⟨t0, h0, rfl⟩ := Machine.slot_eq_some.mp hs
        have hpg := entry_mem_page t0 0 a
        have hnt : ¬ (t0 ≤ i ∧ i < t0 + PGSIZE) := fun hin => hi 0 (by decide) ⟨a, t0, h0, hin⟩
        rw [hm₁, Machine.mem_setPte_of_apart (by omega),
          Machine.mem_memset_of_apart (by have := hf a v (le_refl a) (by omega) hl; omega)]
      · -- the frame of this page, or one of the rest of the range
        rcases hnew' q hq with hq | ⟨b, v', h1, h2, h, rfl⟩
        · rw [hfree₁] at hq
          rcases List.mem_cons.mp hq with rfl | hq
          · exact .inr ⟨a, v, le_refl a, by omega, hl, rfl⟩
          · exact .inl hq
        · have hp : b / PGSIZE ≠ a / PGSIZE := page_ne_of_not_mem hal (.inr h1)
          exact .inr ⟨b, v', by omega, by omega, (hother₁ b (by omega) hp).symm.trans h, rfl⟩

/-- `uvmdealloc(pagetable, a, s)` from `a` down to `s`, both page-aligned and at most
`TRAMPOLINE`: every page of `[s, a)` loses its translation and the frame it had is free; the
memory stays well formed, with everything off the range as it was. -/
theorem uvmdealloc_range {s a : Nat} (hW : Wf m pt) (hs : s % PGSIZE = 0) (ha : a % PGSIZE = 0)
    (hend : a ≤ TRAMPOLINE) :
    ∃ sz m', uvmdealloc m pt a s = .ok (sz, m') ∧ Wf m' pt ∧
      (∀ b, s ≤ b → b < a → m'.leaf pt b = none) ∧
      (∀ b, b < MAXVA → (b < s ∨ a ≤ b) → m'.leaf pt b = m.leaf pt b) ∧
      (∀ b v, s ≤ b → b < a → m.leaf pt b = some v → PTE2PA v ∈ m'.free) ∧
      (∀ q ∈ m.free, q ∈ m'.free) ∧ (∀ va l, m'.table pt va l = m.table pt va l) ∧
      ∀ b v o, b < MAXVA → (b < s ∨ a ≤ b) → m.leaf pt b = some v → o < PGSIZE →
        m'.mem (PTE2PA v + o) = m.mem (PTE2PA v + o) := by
  by_cases hsa : s ≥ a
  · -- nothing to free
    refine ⟨a, m, ?_, hW, fun b h1 h2 => by omega, fun _ _ _ => rfl, fun b v h1 h2 => by omega,
      fun _ h => h, fun _ _ => rfl, fun _ _ _ _ _ _ _ => rfl⟩
    rw [uvmdealloc, if_pos hsa]
    rfl
  · -- `uvmunmap` of the `(a - s) / PGSIZE` pages from `s`
    have hnp : s + (a - s) / PGSIZE * PGSIZE = a := by
      unfold PGSIZE at hs ha ⊢
      omega
    obtain ⟨m', hrun, hW', hnone', hsame', hfreed', hsub', ht', hframe', -, -, -⟩ :=
      uvmunmapLoop_free ((a - s) / PGSIZE) s m hW hs (by rw [hnp]; exact hend)
    rw [hnp] at hnone' hsame' hfreed' hframe'
    refine ⟨s, m', ?_, hW', hnone', hsame', hfreed', hsub', ht', hframe'⟩
    rw [uvmdealloc, if_neg hsa, PGROUNDUP_of_aligned hs, PGROUNDUP_of_aligned ha, if_pos (by omega)]
    show (do
      let m ← uvmunmap m pt s ((a - s) / PGSIZE) true
      pure (s, m)) = _
    rw [uvmunmap, if_neg (not_not.mpr hs), hrun]
    rfl

end Unmap

/-! ## `uvmalloc` -/

section Alloc

variable {pt s newsz xperm : Nat}

/-- The pages of `[a, newsz)` for an aligned `a < newsz` reach past `a`'s page. -/
theorem PGROUNDUP_ge_next {a newsz : Nat} (hal : a % PGSIZE = 0) (hlt : a < newsz) :
    a + PGSIZE ≤ PGROUNDUP newsz := by
  unfold PGROUNDUP
  unfold PGSIZE at hal ⊢
  omega

theorem PGROUNDUP_aligned (sz : Nat) : PGROUNDUP sz % PGSIZE = 0 := by
  unfold PGROUNDUP
  exact Nat.mul_mod_left _ _

/-- An address past `newsz` below `PGROUNDUP(newsz)` lies on the page of the last byte. -/
theorem page_of_last {newsz b : Nat} (h1 : newsz ≤ b) (h2 : b < PGROUNDUP newsz) :
    0 < newsz ∧ b / PGSIZE = (newsz - 1) / PGSIZE := by
  unfold PGROUNDUP at h2
  unfold PGSIZE at h2 ⊢
  omega

/-- The failure path of a turn of `uvmalloc`'s loop at `a`: from memory `m₁` that has the
translations of `m`, keeps its tables and holds each of its free pages as free or as a table,
`uvmdealloc(pagetable, a, oldsz)` leaves `[s, newsz)` unmapped, frees the frames of `[s, a)` and
returns `0`. -/
theorem uvmalloc_undo {m m₁ : Machine} {a : Nat} (hs : s % PGSIZE = 0) (hal : a % PGSIZE = 0)
    (hlt : a < newsz) (hnew : newsz ≤ TRAMPOLINE) (hW₁ : Wf m₁ pt)
    (hnone : ∀ b, a ≤ b → b < newsz → m.leaf pt b = none)
    (hl₁ : ∀ b, m₁.leaf pt b = m.leaf pt b)
    (hfree₁ : ∀ q ∈ m.free, q ∈ m₁.free ∨ ∃ va l, l ≤ 2 ∧ m₁.table pt va l = some q)
    (ht₁ : ∀ va l t, m.table pt va l = some t → m₁.table pt va l = some t) :
    ∃ m', (do
        let (_, m) ← uvmdealloc m₁ pt a s
        pure ((0 : Nat), m)) = .ok (0, m') ∧ Wf m' pt ∧
      (∀ b, s ≤ b → b < newsz → m'.leaf pt b = none) ∧
      (∀ b, b < MAXVA → (b < s ∨ PGROUNDUP newsz ≤ b) → m'.leaf pt b = m.leaf pt b) ∧
      (∀ b v, s ≤ b → b < a → m.leaf pt b = some v → PTE2PA v ∈ m'.free) ∧
      (∀ q ∈ m.free, q ∈ m'.free ∨ ∃ va l, l ≤ 2 ∧ m'.table pt va l = some q) ∧
      ∀ va l t, m.table pt va l = some t → m'.table pt va l = some t := by
  have hup := PGROUNDUP_ge_next hal hlt
  have hTM := TRAMPOLINE_lt_MAXVA
  obtain ⟨sz, m', hd, hW', hnone', hsame', hfreed', hsub', ht', -⟩ :=
    uvmdealloc_range hW₁ hs hal (by omega)
  refine ⟨m', by rw [hd, ok_bind]; rfl, hW', fun b h1 h2 => ?_, fun b hb hb' => ?_,
    fun b v h1 h2 h => hfreed' b v h1 h2 ((hl₁ b).trans h), fun q hq => ?_,
    fun va l t h => (ht' va l).trans (ht₁ va l t h)⟩
  · by_cases hb : b < a
    · exact hnone' b h1 hb
    · rw [hsame' b (by omega) (.inr (by omega)), hl₁ b]
      exact hnone b (by omega) h2
  · rw [hsame' b hb (by omega), hl₁ b]
  · rcases hfree₁ q hq with hq | ⟨va, l, hl, h⟩
    · exact .inl (hsub' q hq)
    · exact .inr ⟨va, l, hl, (ht' va l).trans h⟩

/-- One turn of `uvmalloc`'s loop at a page-aligned `a < newsz` from which nothing below `newsz` is
mapped. Either it gives up: `kalloc` or `mappages` failed, which needs fewer than three free
pages, and `uvmdealloc` undid `[s, a)`. Or `a` is mapped with `PTE_R | PTE_U | xperm` to a zeroed
page `q` that was free, every other translation, frame and table is kept, and the loop goes on
from `a + PGSIZE`. -/
theorem uvmallocLoop_step (hperm : PTE_R ||| PTE_U ||| xperm < 2 ^ 10) (hs : s % PGSIZE = 0)
    (hnew : newsz ≤ TRAMPOLINE) {a : Nat} {m : Machine} (hW : Wf m pt) (hal : a % PGSIZE = 0)
    (hlt : a < newsz) (hnone : ∀ b, a ≤ b → b < newsz → m.leaf pt b = none) :
    (∃ m', uvmallocLoop pt s newsz xperm a m = .ok (0, m') ∧ Wf m' pt ∧ m.free.length < 3 ∧
      (∀ b, s ≤ b → b < newsz → m'.leaf pt b = none) ∧
      (∀ b, b < MAXVA → (b < s ∨ PGROUNDUP newsz ≤ b) → m'.leaf pt b = m.leaf pt b) ∧
      (∀ b v, s ≤ b → b < a → m.leaf pt b = some v → PTE2PA v ∈ m'.free) ∧
      (∀ q ∈ m.free, q ∈ m'.free ∨ ∃ va l, l ≤ 2 ∧ m'.table pt va l = some q) ∧
      ∀ va l t, m.table pt va l = some t → m'.table pt va l = some t) ∨
    ∃ q m₃, q ∈ m.free ∧ Wf m₃ pt ∧
      m₃.leaf pt a = some (leafPte q (PTE_R ||| PTE_U ||| xperm)) ∧
      PTE2PA (leafPte q (PTE_R ||| PTE_U ||| xperm)) = q ∧ (∀ o, o < PGSIZE → m₃.mem (q + o) = 0) ∧
      (∀ b, b < MAXVA → (b < a ∨ a + PGSIZE ≤ b) → m₃.leaf pt b = m.leaf pt b) ∧
      FramesKept m m₃ pt ∧ (∀ q' ∈ m₃.free, q' ∈ m.free) ∧ m.free.length ≤ m₃.free.length + 3 ∧
      (∀ q' ∈ m.free, q' = q ∨ q' ∈ m₃.free ∨ ∃ va l, l ≤ 2 ∧ m₃.table pt va l = some q') ∧
      (∀ va l t, m.table pt va l = some t → m₃.table pt va l = some t) ∧
      uvmallocLoop pt s newsz xperm a m = uvmallocLoop pt s newsz xperm (a + PGSIZE) m₃ := by
  have hTM := TRAMPOLINE_lt_MAXVA
  have hmax : a < MAXVA := by omega
  cases hfree : m.free with
  | nil =>
    -- `kalloc` fails: undo the pages mapped so far
    left
    rw [← hfree]
    obtain ⟨m', hrun, hW', hres⟩ := uvmalloc_undo hs hal hlt hnew hW hnone (fun _ => rfl)
      (fun q hq => .inl hq) (fun _ _ _ h => h)
    refine ⟨m', ?_, hW', by simp [hfree], hres⟩
    rw [uvmallocLoop, if_pos hlt]
    simp only [kalloc, hfree]
    exact hrun
  | cons q rest =>
    -- the goal speaks of the free pages of `m` as a whole
    rw [← hfree]
    have hqm : q ∈ m.free := hfree ▸ List.mem_cons_self
    obtain ⟨r, m₃, hmap, hc₃, hframe₃, hsub₃, hkept₃, htaken₃, hres⟩ :=
      hW.alloc_map hfree hal hmax hperm (hnone a (le_refl a) hlt)
    have hturn : uvmallocLoop pt s newsz xperm a m =
        (do
          let (r, m) ← mappages (({ m with free := rest }.memset q 5 PGSIZE).memset q 0 PGSIZE) pt
            a PGSIZE q (PTE_R ||| PTE_U ||| xperm)
          if r ≠ 0 then
            let m ← kfree m q
            let (_, m) ← uvmdealloc m pt a s
            pure (0, m)
          else uvmallocLoop pt s newsz xperm (a + PGSIZE) m) := by
      rw [uvmallocLoop, if_pos hlt]
      simp only [kalloc, hfree]
    rw [hturn, hmap, ok_bind]
    rcases hres with ⟨rfl, hW₃, hself, hpa, hother, hzero⟩ | ⟨rfl, hsmall, hkf, hW₄, ht₄, hl₄, -⟩
    · -- `a` is mapped to `q`: on to the next page
      right
      refine ⟨q, m₃, hqm, hW₃, hself, hpa, hzero,
        fun b hb hb' => hother b hb (page_ne_of_not_mem hal hb'),
        hframe₃, fun q' hq' => hfree ▸ List.mem_cons_of_mem q (hsub₃ q' hq'), hc₃, htaken₃,
        hkept₃, ?_⟩
      dsimp only
      rw [if_neg (by decide)]
    · -- `mappages` failed: `kfree(mem)`, then undo the pages mapped so far
      left
      dsimp only
      rw [if_pos (by decide), hkf, ok_bind]
      -- the page of this turn is free again, and every other page free before as after `mappages`
      have hfree₄ : ∀ q' ∈ m.free, q' ∈ q :: m₃.free ∨
          ∃ va l, l ≤ 2 ∧ m₃.table pt va l = some q' := by
        intro q' hq'
        rcases htaken₃ q' hq' with rfl | hq' | ⟨va, l, hl, h⟩
        · exact .inl List.mem_cons_self
        · exact .inl (List.mem_cons_of_mem _ hq')
        · exact .inr ⟨va, l, hl, h⟩
      obtain ⟨m', hrun, hW', hres⟩ := uvmalloc_undo hs hal hlt hnew hW₄ hnone hl₄
        (fun q' hq' => by simpa only [ht₄] using hfree₄ q' hq')
        (fun va l t h => (ht₄ va l).trans (hkept₃ va l t h))
      exact ⟨m', hrun, hW', by omega, hres⟩

/-- A run of `uvmalloc`'s loop from a page-aligned `a ≥ s` from which nothing below `newsz` is
mapped: the new size with every page of `[a, newsz)` mapped to a zeroed page that was free, or
`0` with `[s, newsz)` unmapped and what was taken given back, which needs fewer than three free
pages for each page left to map. -/
theorem uvmallocLoop_run (hperm : PTE_R ||| PTE_U ||| xperm < 2 ^ 10) (hs : s % PGSIZE = 0)
    (hnew : newsz ≤ TRAMPOLINE) (d : Nat) :
    ∀ (a : Nat) (m : Machine), newsz - a = d → Wf m pt → a % PGSIZE = 0 → s ≤ a →
      (∀ b, a ≤ b → b < newsz → m.leaf pt b = none) →
      ∃ r m', uvmallocLoop pt s newsz xperm a m = .ok (r, m') ∧ Wf m' pt ∧
        ((r = newsz ∧
            (∀ b, a ≤ b → b < newsz → ∃ q ∈ m.free,
              m'.leaf pt b = some (leafPte q (PTE_R ||| PTE_U ||| xperm)) ∧
              ∀ o, o < PGSIZE → m'.mem (q + o) = 0) ∧
            (∀ b, b < MAXVA → (b < a ∨ PGROUNDUP newsz ≤ b) → m'.leaf pt b = m.leaf pt b) ∧
            FramesKept m m' pt) ∨
          (r = 0 ∧ m.free.length < 3 * ((PGROUNDUP newsz - a) / PGSIZE) ∧
            (∀ b, s ≤ b → b < newsz → m'.leaf pt b = none) ∧
            (∀ b, b < MAXVA → (b < s ∨ PGROUNDUP newsz ≤ b) → m'.leaf pt b = m.leaf pt b) ∧
            (∀ b v, s ≤ b → b < a → m.leaf pt b = some v → PTE2PA v ∈ m'.free) ∧
            (∀ q ∈ m.free, q ∈ m'.free ∨ ∃ va l, l ≤ 2 ∧ m'.table pt va l = some q) ∧
            ∀ va l t, m.table pt va l = some t → m'.table pt va l = some t)) := by
  -- induction on what is left below `newsz`, one page a turn
  induction d using Nat.strong_induction_on with
  | _ d ih =>
  intro a m hd hW hal hsa hnone
  by_cases hlt : a < newsz
  swap
  · -- past `newsz`: the new size
    refine ⟨newsz, m, ?_, hW, .inl ⟨rfl, fun b h1 h2 => by omega, fun _ _ _ => rfl,
      fun _ _ _ _ _ _ => rfl⟩⟩
    rw [uvmallocLoop, if_neg hlt]
    rfl
  have hTM := TRAMPOLINE_lt_MAXVA
  have hup := PGROUNDUP_ge_next hal hlt
  have hP : 0 < PGSIZE := by decide
  have hal' : (a + PGSIZE) % PGSIZE = 0 := by
    unfold PGSIZE at hal ⊢
    omega
  rcases uvmallocLoop_step hperm hs hnew hW hal hlt hnone with ⟨m', hrun, hW', hsmall, hres⟩ |
    ⟨q, m₃, hqm, hW₃, hself, hpa, hzero, hoff, hframe₃, hsub₃, hc₃, htaken₃, hkept₃, hturn⟩
  · -- this turn gave up, with fewer than three free pages
    have hfew : m.free.length < 3 * ((PGROUNDUP newsz - a) / PGSIZE) := by
      unfold PGSIZE at hup ⊢
      omega
    exact ⟨0, m', hrun, hW', .inr ⟨rfl, hfew, hres⟩⟩
  -- `a` is mapped to `q`: the rest of the loop, from where nothing else changed
  obtain ⟨r', m', hrun, hW', hres'⟩ := ih (newsz - (a + PGSIZE)) (by omega) (a + PGSIZE) m₃ rfl
    hW₃ hal' (by omega) fun b h1 h2 => (hoff b (by omega) (.inr h1)).trans (hnone b (by omega) h2)
  refine ⟨r', m', hturn.trans hrun, hW', ?_⟩
  rcases hres' with ⟨rfl, hmapped', hsame', hframe'⟩
    | ⟨rfl, hfew', hnone', hsame', hfreed', htaken', hkept'⟩
  · refine .inl ⟨rfl, fun b h1 h2 => ?_, fun b hb hb' => ?_, fun b v o hb h ho => ?_⟩
    · by_cases hb : b < a + PGSIZE
      · -- `b` lies on `a`'s page, which the rest of the loop left as it was
        have hp := page_eq_of_mem hal h1 hb
        refine ⟨q, hqm, ?_, fun o ho => ?_⟩
        · rw [hsame' b (by omega) (.inl hb), Machine.leaf_of_page hp, hself]
        · have h := hframe' a _ o (by omega) hself ho
          rw [hpa] at h
          rw [h, hzero o ho]
      · obtain ⟨q', hq', hl', hz'⟩ := hmapped' b (by omega) h2
        exact ⟨q', hsub₃ q' hq', hl', hz'⟩
    · rw [hsame' b hb (by omega), hoff b hb (by omega)]
    · -- a frame of `m` lies off `a`'s page, which had none
      have hb' : b < a ∨ a + PGSIZE ≤ b := by
        by_contra hin
        rw [Machine.leaf_of_page (page_eq_of_mem hal (by omega) (by omega)),
          hnone a (le_refl a) hlt] at h
        cases h
      rw [hframe' b v o hb ((hoff b hb hb').trans h) ho, hframe₃ b v o hb h ho]
  · -- this turn took at most three pages
    have hfew : m.free.length < 3 * ((PGROUNDUP newsz - a) / PGSIZE) := by
      unfold PGSIZE at hup hfew' ⊢
      omega
    refine .inr ⟨rfl, hfew, hnone', fun b hb hb' => ?_, fun b v h1 h2 h => ?_,
      fun q' hq' => ?_, fun va l t h => hkept' va l t (hkept₃ va l t h)⟩
    · rw [hsame' b hb (by omega), hoff b hb (by omega)]
    · exact hfreed' b v h1 (by omega) ((hoff b (by omega) (.inl h2)).trans h)
    · rcases htaken₃ q' hq' with rfl | hq' | ⟨va, l, hl, h⟩
      · -- the page of this turn, freed by the undo
        have h := hfreed' a _ hsa (by omega) hself
        rw [hpa] at h
        exact .inl h
      · exact htaken' q' hq'
      · exact .inr ⟨va, l, hl, hkept' va l q' h⟩

/-- `uvmalloc(pagetable, oldsz, newsz, xperm)` for `oldsz ≤ newsz ≤ TRAMPOLINE`, over pages with
no translation from `PGROUNDUP(oldsz)` below `newsz`. It returns `newsz`, every page of
`[PGROUNDUP(oldsz), newsz)` mapped with `PTE_R | PTE_U | xperm` to a zeroed page that was free
and nothing else changed; or it returns `0`, every translation as it was, every page that was
free free again or a table page, and every table kept, which happens only with fewer than three
free pages for each page to map. -/
theorem uvmalloc_run {m : Machine} {oldsz : Nat} (hW : Wf m pt)
    (hperm : PTE_R ||| PTE_U ||| xperm < 2 ^ 10) (hle : oldsz ≤ newsz) (hnew : newsz ≤ TRAMPOLINE)
    (hnone : ∀ b, PGROUNDUP oldsz ≤ b → b < newsz → m.leaf pt b = none) :
    ∃ r m', uvmalloc m pt oldsz newsz xperm = .ok (r, m') ∧ Wf m' pt ∧
      ((r = newsz ∧
          (∀ b, PGROUNDUP oldsz ≤ b → b < newsz → ∃ q ∈ m.free,
            m'.leaf pt b = some (leafPte q (PTE_R ||| PTE_U ||| xperm)) ∧
            ∀ o, o < PGSIZE → m'.mem (q + o) = 0) ∧
          (∀ b, b < MAXVA → (b < PGROUNDUP oldsz ∨ PGROUNDUP newsz ≤ b) →
            m'.leaf pt b = m.leaf pt b) ∧
          FramesKept m m' pt) ∨
        (r = 0 ∧ m.free.length < 3 * ((PGROUNDUP newsz - PGROUNDUP oldsz) / PGSIZE) ∧
          (∀ b, b < MAXVA → m'.leaf pt b = m.leaf pt b) ∧
          (∀ q ∈ m.free, q ∈ m'.free ∨ ∃ va l, l ≤ 2 ∧ m'.table pt va l = some q) ∧
          ∀ va l t, m.table pt va l = some t → m'.table pt va l = some t)) := by
  have hs := PGROUNDUP_aligned oldsz
  obtain ⟨r, m', hrun, hW', hres⟩ :=
    uvmallocLoop_run hperm hs hnew (newsz - PGROUNDUP oldsz) (PGROUNDUP oldsz) m rfl hW hs
      (le_refl _) hnone
  have hup : uvmalloc m pt oldsz newsz xperm = uvmallocLoop pt (PGROUNDUP oldsz) newsz xperm
      (PGROUNDUP oldsz) m := by
    rw [uvmalloc, if_neg (by omega)]
  refine ⟨r, m', hup ▸ hrun, hW', ?_⟩
  rcases hres with hok | ⟨rfl, hfew, hnone', hsame', -, htaken', hkept'⟩
  · exact .inl hok
  · refine .inr ⟨rfl, hfew, fun b hb => ?_, htaken', hkept'⟩
    by_cases hoff : b < PGROUNDUP oldsz ∨ PGROUNDUP newsz ≤ b
    · exact hsame' b hb hoff
    · by_cases hbn : b < newsz
      · rw [hnone' b (by omega) hbn, hnone b (by omega) hbn]
      · -- past `newsz` on the page of its last byte, which the loop mapped and then unmapped
        obtain ⟨hpos, hp⟩ := page_of_last (by omega) (by omega : b < PGROUNDUP newsz)
        have hsn : PGROUNDUP oldsz ≤ newsz - 1 := by
          unfold PGROUNDUP at hoff ⊢
          unfold PGSIZE at hoff hp ⊢
          omega
        rw [Machine.leaf_of_page hp, Machine.leaf_of_page hp, hnone' _ hsn (by omega),
          hnone _ hsn (by omega)]

end Alloc

/-! ## `uvmclear` -/

section Clear

variable {m : Machine} {pt : Nat}

/-- `~PTE_U` keeps the frame of an entry. -/
theorem PTE2PA_clearU {v : Nat} (hv : v < 2 ^ 64) :
    PTE2PA (v &&& (2 ^ 64 - 1 - PTE_U)) = PTE2PA v := by
  unfold PTE2PA
  -- the mask has every bit from 10 to 63
  have hshift : (v &&& (2 ^ 64 - 1 - PTE_U)) >>> 10 = v >>> 10 := by
    have hc : (2 ^ 64 - 1 - PTE_U) >>> 10 = 2 ^ 54 - 1 := by decide
    rw [Nat.shiftRight_and_distrib, hc, Nat.and_two_pow_sub_one_eq_mod, Nat.mod_eq_of_lt]
    rw [Nat.shiftRight_eq_div_pow]
    omega
  rw [hshift]

/-- `~PTE_U` keeps every flag the mask has, and clears `PTE_U`. -/
theorem clearU_and_flag (v : Nat) {f : Nat} (hf : (2 ^ 64 - 1 - PTE_U) &&& f = f) :
    (v &&& (2 ^ 64 - 1 - PTE_U)) &&& f = v &&& f := by
  rw [Nat.and_assoc, hf]

theorem clearU_user (v : Nat) : (v &&& (2 ^ 64 - 1 - PTE_U)) &&& PTE_U = 0 := by
  have hU : (2 ^ 64 - 1 - PTE_U) &&& PTE_U = 0 := by decide
  rw [Nat.and_assoc, hU, Nat.and_zero]

/-- A machine with the tables and the kernel end of `m` and some of its free pages, whose every
translation below `MAXVA` has the frame of a translation of `m` at the same address, is well
formed too. -/
theorem Wf.of_same_frames (hW : Wf m pt) {m' : Machine}
    (ht : ∀ va l, m'.table pt va l = m.table pt va l) (hf : m'.free.Sublist m.free)
    (hk : m'.kend = m.kend)
    (hl : ∀ va w, va < MAXVA → m'.leaf pt va = some w →
      ∃ v, m.leaf pt va = some v ∧ PTE2PA w = PTE2PA v) : Wf m' pt := by
  refine ⟨hW.tree.of_sublist ht hf, hk ▸ hW.kend_pos, fun q hq => hk ▸ hW.free_ge q (hf.subset hq),
    ?_, ?_, ?_, ?_, ?_⟩
  · intro va w hva h
    obtain ⟨v, h0, he⟩ := hl va w (lt_MAXVA_of_lt_TRAMPOLINE hva) h
    rw [he, hk]
    exact hW.frame_ge va v hva h0
  · intro va w hva h
    obtain ⟨v, h0, he⟩ := hl va w (lt_MAXVA_of_lt_TRAMPOLINE hva) h
    rw [he]
    exact hW.frame_lt va v hva h0
  · intro va w va' l t hva h hl2 ht'
    obtain ⟨v, h0, he⟩ := hl va w hva h
    rw [he]
    exact hW.frame_not_table va v va' l t hva h0 hl2 (ht va' l ▸ ht')
  · intro va w hva h hm
    obtain ⟨v, h0, he⟩ := hl va w hva h
    rw [he] at hm
    exact hW.frame_not_free va v hva h0 (hf.subset hm)
  · intro va va' w w' hva hva' h h' heq
    obtain ⟨v, h0, he⟩ := hl va w hva h
    obtain ⟨v', h0', he'⟩ := hl va' w' hva' h'
    exact hW.frame_inj va va' v v' hva hva' h0 h0' (he.symm.trans (heq.trans he'))

/-- `uvmclear(pagetable, a)` on a mapped page below `TRAMPOLINE`: the page keeps its frame and its
other flags and loses `PTE_U`; the memory stays well formed, with every other translation, every
table, the free pages and every byte of every frame as they were. -/
theorem uvmclear_run (hW : Wf m pt) {a v : Nat} (ha : a < TRAMPOLINE) (hl : m.leaf pt a = some v) :
    ∃ m', uvmclear m pt a = .ok m' ∧ Wf m' pt ∧
      m'.leaf pt a = some (v &&& (2 ^ 64 - 1 - PTE_U)) ∧
      (∀ a', a' < MAXVA → a' / PGSIZE ≠ a / PGSIZE → m'.leaf pt a' = m.leaf pt a') ∧
      (∀ va l, m'.table pt va l = m.table pt va l) ∧ m'.free = m.free ∧ FramesKept m m' pt := by
  have hmax := lt_MAXVA_of_lt_TRAMPOLINE ha
  obtain ⟨e, hs, hvalid, rfl⟩ := Machine.leaf_eq_some.mp hl
  have hlt : m.pte e &&& (2 ^ 64 - 1 - PTE_U) < 2 ^ 64 :=
    Nat.lt_of_le_of_lt Nat.and_le_left (Machine.pte_lt m e)
  have hV : (2 ^ 64 - 1 - PTE_U) &&& PTE_V = PTE_V := by decide
  obtain ⟨hself, hother⟩ := leaf_setPte_slot hW.tree hmax hs hlt
    (by rw [clearU_and_flag _ hV]; exact hvalid)
  have ht := table_setPte_slot hW.tree hs (m.pte e &&& (2 ^ 64 - 1 - PTE_U))
  refine ⟨m.setPte e (m.pte e &&& (2 ^ 64 - 1 - PTE_U)), ?_, ?_, hself, hother, ht, rfl,
    fun a' w o ha' h ho => hW.grows_frame (setPte_slot_grows hW.tree hs) ha' h ho⟩
  · rw [uvmclear, walk_false hmax, ok_bind]
    dsimp only
    rw [hs]
    rfl
  · -- the cleared page keeps its frame; every other translation is one of `m`
    apply hW.of_same_frames ht (.refl _) rfl
    intro va w hva h
    by_cases hp : va / PGSIZE = a / PGSIZE
    · rw [Machine.leaf_of_page hp, hself] at h
      cases h
      exact ⟨m.pte e, (Machine.leaf_of_page hp).trans hl, PTE2PA_clearU (Machine.pte_lt m e)⟩
    · rw [hother va hva hp] at h
      exact ⟨w, h, rfl⟩

end Clear

end Xv6.Vm
