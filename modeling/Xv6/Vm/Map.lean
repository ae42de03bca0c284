import Xv6.Vm.Walk
import Xv6.Lib.Loop

/-!
# Xv6.Vm.Map — what `mappages` maps

Below `MAXVA` the three indices `PX(2..0, va)` are the page number of `va` (`page_eq_of_PX`),
so on a tree distinct pages have distinct, non-overlapping leaf entries (`Tree.slot_apart`).
A store to one leaf entry then changes no table (`table_setPte_slot`) and no other page's
translation (`leaf_setPte_slot`).

`mappages` walks with allocation to each page of its range and stores
`PA2PTE(pa) | perm | PTE_V` in the leaf entry. When it returns `0` on a tree whose range has no
valid page, every page of the range is translated by the entry made for it, every other page
as before, and the tree is kept (`mappagesLoop_spec`, by induction on the pages left).
-/

namespace Xv6.Vm

open Xv6.Lib

/-- Two addresses below `MAXVA` with the same three table indices lie on the same page. -/
theorem page_eq_of_PX {a a' : Nat} (ha : a < MAXVA) (ha' : a' < MAXVA) (h0 : PX 0 a = PX 0 a')
    (h1 : PX 1 a = PX 1 a') (h2 : PX 2 a = PX 2 a') : a / PGSIZE = a' / PGSIZE := by
  simp only [PX_eq] at h0 h1 h2
  unfold MAXVA at ha ha'
  unfold PGSIZE
  simp only [Nat.reducePow, Nat.reduceMul, Nat.reduceAdd, Nat.mul_zero, Nat.add_zero] at *
  omega

/-- The indices of an address depend on its page only. -/
theorem PX_of_page {a a' : Nat} (h : a / PGSIZE = a' / PGSIZE) (l : Nat) : PX l a = PX l a' := by
  rw [PX_eq, PX_eq, Nat.pow_add, ← Nat.div_div_eq_div_mul, ← Nat.div_div_eq_div_mul]
  unfold PGSIZE at h
  rw [show (2 : Nat) ^ 12 = 4096 from rfl, h]

/-- So does its translation. -/
theorem Machine.leaf_of_page {m : Machine} {pt a a' : Nat} (h : a / PGSIZE = a' / PGSIZE) :
    m.leaf pt a = m.leaf pt a' := by
  have hn : ∀ l, m.next a l = m.next a' l := by
    intro l
    funext t
    simp only [Machine.next, PX_of_page h]
  simp only [Machine.leaf, Machine.slot, Machine.table, hn, PX_of_page h]

theorem Machine.slot_eq_some {m : Machine} {pt a e : Nat} :
    m.slot pt a = some e ↔ ∃ t0, m.table pt a 0 = some t0 ∧ t0 + 8 * PX 0 a = e := by
  rw [Machine.slot, Option.map_eq_some_iff]

theorem Machine.leaf_eq_some {m : Machine} {pt a v : Nat} :
    m.leaf pt a = some v ↔ ∃ e, m.slot pt a = some e ∧ m.pte e &&& PTE_V ≠ 0 ∧ m.pte e = v := by
  rw [Machine.leaf, Option.bind_eq_some_iff]
  constructor
  · rintro ⟨e, hs, h⟩
    by_cases hv : m.pte e &&& PTE_V ≠ 0
    · rw [if_pos hv] at h
      exact ⟨e, hs, hv, Option.some.inj h⟩
    · rw [if_neg hv] at h
      cases h
  · rintro ⟨e, hs, hv, rfl⟩
    exact ⟨e, hs, by rw [if_pos hv]⟩

/-- A root whose entries are all invalid translates nothing. -/
theorem Machine.leaf_of_root_empty {m : Machine} {pt : Nat} (hroot : ∀ va, m.next va 2 pt = none)
    (a : Nat) : m.leaf pt a = none := by
  rw [Machine.leaf, Machine.slot, Machine.table_zero, Machine.table_one, hroot, Option.bind_none,
    Option.map_none, Option.bind_none]

/-- A page-aligned root whose entries are all invalid, off a well-formed free list, is a tree:
the page table `uvmcreate` makes. -/
theorem Tree.of_root_empty {m : Machine} {pt : Nat} (hpt : pt % PGSIZE = 0) (hnf : pt ∉ m.free)
    (hroot : ∀ va, m.next va 2 pt = none) (hfa : ∀ p ∈ m.free, p % PGSIZE = 0)
    (hfl : ∀ p ∈ m.free, p < PHYSTOP) (hnd : m.free.Nodup) : Tree m pt := by
  -- the root is the only table on any path, and only at level 2
  have htab : ∀ va l t, m.table pt va l = some t → 2 ≤ l ∧ t = pt := by
    intro va l t h
    match l with
    | 0 => simp only [Machine.table_zero, Machine.table_one, hroot, Option.bind_none] at h; cases h
    | 1 => simp only [Machine.table_one, hroot] at h; cases h
    | l + 2 => exact ⟨by omega, (Option.some.inj h).symm⟩
  exact {
    aligned := fun va l t h => (htab va l t h).2 ▸ hpt
    not_free := fun va l t h => (htab va l t h).2 ▸ hnf
    inj := fun va va' l l' t hl hl' h h' => by
      have := (htab va l t h).1
      have := (htab va' l' t h').1
      exact ⟨by omega, fun k hk hk' => by omega⟩
    free_aligned := hfa
    free_lt := hfl
    free_nodup := hnd }

section Slots

variable {m : Machine} {pt : Nat}

/-- On a tree, the leaf entries of two pages below `MAXVA` do not overlap. -/
theorem Tree.slot_apart (hT : Tree m pt) {a a' e e' : Nat} (ha : a < MAXVA) (ha' : a' < MAXVA)
    (hne : a / PGSIZE ≠ a' / PGSIZE) (hs : m.slot pt a = some e) (hs' : m.slot pt a' = some e') :
    e + 8 ≤ e' ∨ e' + 8 ≤ e := by
  obtain ⟨t0, h0, rfl⟩ := Machine.slot_eq_some.mp hs
  obtain ⟨t0', h0', rfl⟩ := Machine.slot_eq_some.mp hs'
  apply hT.entries_apart h0 h0'
  by_cases ht : t0 = t0'
  · -- one level-0 table: the two pages agree above level 0, so they differ at it
    subst ht
    have hpre := (hT.inj a a' 0 0 t0 (by omega) (by omega) h0 h0').2
    exact .inr fun hx => hne (page_eq_of_PX ha ha' hx (hpre 1 (by omega) (by omega))
      (hpre 2 (by omega) (by omega)))
  · exact .inl ht

/-- A tree whose tables read the same in another machine with the same free list is a tree
there too. -/
theorem Tree.congr {m' : Machine} (hT : Tree m pt) (ht : ∀ va l, m'.table pt va l = m.table pt va l)
    (hf : m'.free = m.free) : Tree m' pt where
  aligned va l t h := hT.aligned va l t (ht va l ▸ h)
  not_free va l t h := hf ▸ hT.not_free va l t (ht va l ▸ h)
  inj va va' l l' t hl hl' h h' := hT.inj va va' l l' t hl hl' (ht va l ▸ h) (ht va' l' ▸ h')
  free_aligned := hf ▸ hT.free_aligned
  free_lt := hf ▸ hT.free_lt
  free_nodup := hf ▸ hT.free_nodup

/-- A leaf entry lies in a level-0 table, which is none of the tables above it: a store there
changes no path. -/
theorem table_setPte_slot (hT : Tree m pt) {a e : Nat} (hs : m.slot pt a = some e) (v va l : Nat) :
    (m.setPte e v).table pt va l = m.table pt va l := by
  obtain ⟨t0, h0, rfl⟩ := Machine.slot_eq_some.mp hs
  have hpg := entry_mem_page t0 0 a
  apply table_congr
  rintro i (⟨va', t, ht, hi1, hi2⟩ | ⟨va', t, ht, hi1, hi2⟩)
  all_goals
    have hne := hT.ne_of_level (by omega) (by omega) (by omega) h0 ht
    have hal := hT.aligned _ _ _ h0
    have hal' := hT.aligned _ _ _ ht
    unfold PGSIZE at hal hal' hi2 hpg
    exact storeLE_of_not_mem (by omega)

/-- A store to the leaf entry of `a` leaves every other page below `MAXVA` as it was. -/
theorem leaf_setPte_other (hT : Tree m pt) {a e : Nat} (ha : a < MAXVA) (hs : m.slot pt a = some e)
    (v : Nat) :
    ∀ a', a' < MAXVA → a' / PGSIZE ≠ a / PGSIZE → (m.setPte e v).leaf pt a' = m.leaf pt a' := by
  intro a' ha' hne
  apply leaf_eq_of_table (table_setPte_slot hT hs v a' 0)
  intro t0 h0
  exact Machine.pte_setPte_of_apart
    (hT.slot_apart ha' ha hne (Machine.slot_eq_some.mpr ⟨t0, h0, rfl⟩) hs)

/-- A store of a valid entry to the leaf entry of `a` translates `a`'s page by it and leaves
every other page below `MAXVA` as it was. -/
theorem leaf_setPte_slot (hT : Tree m pt) {a e v : Nat} (ha : a < MAXVA) (hs : m.slot pt a = some e)
    (hv : v < 2 ^ 64) (hval : v &&& PTE_V ≠ 0) :
    (m.setPte e v).leaf pt a = some v ∧
      ∀ a', a' < MAXVA → a' / PGSIZE ≠ a / PGSIZE → (m.setPte e v).leaf pt a' = m.leaf pt a' := by
  refine ⟨?_, leaf_setPte_other hT ha hs v⟩
  rw [Machine.leaf, Machine.slot, table_setPte_slot hT hs v, ← Machine.slot, hs, Option.bind_some,
    Machine.pte_setPte_self, Nat.mod_eq_of_lt hv, if_pos hval]

/-- A store of `0` to the leaf entry of `a` leaves `a`'s page without a translation. -/
theorem leaf_setPte_zero (hT : Tree m pt) {a e : Nat} (hs : m.slot pt a = some e) :
    (m.setPte e 0).leaf pt a = none := by
  rw [Machine.leaf, Machine.slot, table_setPte_slot hT hs 0, ← Machine.slot, hs, Option.bind_some,
    Machine.pte_setPte_self]
  rfl

end Slots

/-! ## The loop of `mappages` -/

section Loop

variable {pt perm k a pa : Nat} {m m' : Machine}

/-- The last turn of the loop, returning `0`: the walk found `a`'s leaf entry, it was invalid,
and the new entry is stored there. -/
theorem mappagesLoop_zero (h : mappagesLoop pt perm 0 a pa m = .ok (0, m')) :
    ∃ e m₁, walk m pt a true = .ok (some e, m₁) ∧ ¬ m₁.pte e &&& PTE_V ≠ 0 ∧
      m' = m₁.setPte e (leafPte pa perm) := by
  rw [mappagesLoop] at h
  obtain ⟨⟨r, m₁⟩, hw, h⟩ := bind_eq_ok h
  cases r with
  | none => cases h
  | some e =>
    dsimp only at h
    by_cases hv : m₁.pte e &&& PTE_V ≠ 0
    · rw [if_pos hv] at h
      cases h
    · rw [if_neg hv] at h
      exact ⟨e, m₁, hw, hv, (Prod.mk.inj (Except.ok.inj h)).2.symm⟩

/-- A turn before the last, in a loop returning `0`: as the last, then the loop goes on from
the next page. -/
theorem mappagesLoop_succ (h : mappagesLoop pt perm (k + 1) a pa m = .ok (0, m')) :
    ∃ e m₁, walk m pt a true = .ok (some e, m₁) ∧ ¬ m₁.pte e &&& PTE_V ≠ 0 ∧
      mappagesLoop pt perm k (a + PGSIZE) (pa + PGSIZE) (m₁.setPte e (leafPte pa perm)) =
        .ok (0, m') := by
  rw [mappagesLoop] at h
  obtain ⟨⟨r, m₁⟩, hw, h⟩ := bind_eq_ok h
  cases r with
  | none => cases h
  | some e =>
    dsimp only at h
    by_cases hv : m₁.pte e &&& PTE_V ≠ 0
    · rw [if_pos hv] at h
      cases h
    · rw [if_neg hv] at h
      exact ⟨e, m₁, hw, hv, h⟩

end Loop

/-! ## What an allocating walk writes -/

/-- `i` lies in a page of the free list. -/
def Machine.InFree (m : Machine) (i : Nat) : Prop := ∃ q ∈ m.free, q ≤ i ∧ i < q + PGSIZE

/-- `m'` is `m` after the table at `pt` took pages off the free list: its tables are tables of
`m` or pages that were free, the free list only lost pages, and memory changed only in the
pages of tables and of the free list. -/
structure Grows (m m' : Machine) (pt : Nat) : Prop where
  kend : m'.kend = m.kend
  free : m'.free.Sublist m.free
  table : ∀ va l t, m'.table pt va l = some t → m.table pt va l = some t ∨ t ∈ m.free
  mem : ∀ i, (∀ l ≤ 2, ¬ m.InTable pt l i) → ¬ m.InFree i → m'.mem i = m.mem i

section Grows

variable {m m₁ m₂ : Machine} {pt : Nat}

theorem Grows.refl (m : Machine) (pt : Nat) : Grows m m pt :=
  ⟨rfl, .refl _, fun _ _ _ h => .inl h, fun _ _ _ => rfl⟩

theorem Grows.trans (h₁ : Grows m m₁ pt) (h₂ : Grows m₁ m₂ pt) : Grows m m₂ pt where
  kend := h₂.kend.trans h₁.kend
  free := h₂.free.trans h₁.free
  table va l t h := (h₂.table va l t h).elim (h₁.table va l t) fun hf => .inr (h₁.free.subset hf)
  mem i hi hf := by
    -- a byte off `m`'s tables and free pages is off `m₁`'s too
    have hi₁ : ∀ l ≤ 2, ¬ m₁.InTable pt l i := by
      rintro l hl ⟨va, t, ht, h1, h2⟩
      rcases h₁.table va l t ht with ht | ht
      · exact hi l hl ⟨va, t, ht, h1, h2⟩
      · exact hf ⟨t, ht, h1, h2⟩
    have hf₁ : ¬ m₁.InFree i := fun ⟨q, hq, h1, h2⟩ => hf ⟨q, h₁.free.subset hq, h1, h2⟩
    rw [h₂.mem i hi₁ hf₁, h₁.mem i hi hf]

/-- A tree stays a tree when its tables read the same and the free list only lost pages. -/
theorem Tree.of_sublist {m' : Machine} (hT : Tree m pt)
    (ht : ∀ va l, m'.table pt va l = m.table pt va l) (hf : m'.free.Sublist m.free) :
    Tree m' pt where
  aligned va l t h := hT.aligned va l t (ht va l ▸ h)
  not_free va l t h hm := hT.not_free va l t (ht va l ▸ h) (hf.subset hm)
  inj va va' l l' t hl hl' h h' := hT.inj va va' l l' t hl hl' (ht va l ▸ h) (ht va' l' ▸ h')
  free_aligned q hq := hT.free_aligned q (hf.subset hq)
  free_lt q hq := hT.free_lt q (hf.subset hq)
  free_nodup := hT.free_nodup.sublist hf

end Grows

section Footprint

variable {m m' : Machine} {pt va l t p : Nat} {rest : List Nat}

theorem Machine.mem_setPte_of_apart {e v i : Nat} (h : i < e ∨ e + 8 ≤ i) :
    (m.setPte e v).mem i = m.mem i :=
  storeLE_of_not_mem h

theorem Machine.mem_memset_of_apart {pa n i : Nat} {c : UInt8} (h : i < pa ∨ pa + n ≤ i) :
    (m.memset pa c n).mem i = m.mem i := by
  rcases h with h | h
  · exact copyBytes_of_lt m.mem (fun _ => c) n h
  · exact copyBytes_of_ge m.mem (fun _ => c) h

/-- The fill writes only the filled entry, in a table of the tree, and the page it takes. -/
theorem attach_grows (hT : Tree m pt) (hl : l = 1 ∨ l = 2) (ht : m.table pt va l = some t)
    (hfree : m.free = p :: rest) : Grows m (attach m (t + 8 * PX l va) p rest) pt where
  kend := rfl
  free := hfree ▸ List.sublist_cons_self p rest
  table va' k t' h := (attach_table_cases hT hl ht hfree h).elim
    (fun hp => .inr (hp.1 ▸ hfree ▸ List.mem_cons_self)) .inl
  mem i hi hf := by
    have hpg := entry_mem_page t l va
    have he : i < t + 8 * PX l va ∨ t + 8 * PX l va + 8 ≤ i := by
      by_contra hin
      exact hi l (by omega) ⟨va, t, ht, by omega, by omega⟩
    have hp : i < p ∨ p + PGSIZE ≤ i := by
      by_contra hin
      exact hf ⟨p, hfree ▸ List.mem_cons_self, by omega, by omega⟩
    rw [attach, Machine.mem_setPte_of_apart he, Machine.mem_memset_of_apart hp,
      Machine.mem_memset_of_apart hp]

theorem walkLevel_grows {r : Option Nat} (hT : Tree m pt) (hl : l = 1 ∨ l = 2)
    (ht : m.table pt va l = some t) (h : walkLevel true va l t m = (r, m')) : Grows m m' pt := by
  by_cases hv : m.pte (t + 8 * PX l va) &&& PTE_V ≠ 0
  · rw [walkLevel_valid hv, Prod.mk.injEq] at h
    rw [← h.2]
    exact Grows.refl m pt
  · cases hfree : m.free with
    | nil =>
      rw [walkLevel_empty hv hfree, Prod.mk.injEq] at h
      rw [← h.2]
      exact Grows.refl m pt
    | cons q rest =>
      rw [walkLevel_attach hv hfree, Prod.mk.injEq] at h
      rw [← h.2]
      exact attach_grows hT hl ht hfree

/-- A turn of the walk takes at most one free page, and stops only when there is none. -/
theorem walkLevel_free {r : Option Nat} (h : walkLevel true va l t m = (r, m')) :
    m.free.length ≤ m'.free.length + 1 ∧ (r = none → m.free = []) := by
  by_cases hv : m.pte (t + 8 * PX l va) &&& PTE_V ≠ 0
  · rw [walkLevel_valid hv, Prod.mk.injEq] at h
    obtain ⟨rfl, rfl⟩ := h
    refine ⟨by omega, fun hr => ?_⟩
    rw [Machine.next, if_pos hv] at hr
    cases hr
  · cases hfree : m.free with
    | nil => exact ⟨by simp, fun _ => rfl⟩
    | cons q rest =>
      rw [walkLevel_attach hv hfree, Prod.mk.injEq] at h
      obtain ⟨rfl, rfl⟩ := h
      exact ⟨by simp, fun hr => by cases hr⟩

/-- Below `MAXVA`, `walk` does not panic. -/
theorem walk_ok (alloc : Bool) (hva : va < MAXVA) : ∃ r m', walk m pt va alloc = .ok (r, m') := by
  rw [walk, if_neg (Nat.not_le.mpr hva)]
  split
  · exact ⟨_, _, rfl⟩
  · split <;> exact ⟨_, _, rfl⟩

/-- A store to a leaf entry writes inside a level-0 table and changes no path. -/
theorem setPte_slot_grows (hT : Tree m pt) {a e v : Nat} (hs : m.slot pt a = some e) :
    Grows m (m.setPte e v) pt where
  kend := rfl
  free := .refl _
  table va' l t' h := .inl (table_setPte_slot hT hs v va' l ▸ h)
  mem i hi _ := by
    obtain ⟨t0, h0, rfl⟩ := Machine.slot_eq_some.mp hs
    have hpg := entry_mem_page t0 0 a
    apply Machine.mem_setPte_of_apart
    by_contra hin
    exact hi 0 (by omega) ⟨a, t0, h0, by omega, by omega⟩

/-- An allocating walk on a tree grows it. -/
theorem walk_alloc_grows {r : Option Nat} (hT : Tree m pt) (hva : va < MAXVA)
    (h : walk m pt va true = .ok (r, m')) : Grows m m' pt := by
  rw [walk, if_neg (Nat.not_le.mpr hva)] at h
  rcases hw₁ : walkLevel true va 2 pt m with ⟨r₁, m₁⟩
  have hg₁ := walkLevel_grows hT (.inr rfl) (m.table_two pt va) hw₁
  obtain ⟨hT₁, -, hr₁, -⟩ := walkLevel_spec hT (.inr rfl) (m.table_two pt va) hw₁
  rw [hw₁] at h
  cases r₁ with
  | none =>
    obtain ⟨-, rfl⟩ : none = r ∧ m₁ = m' := by simpa using h
    exact hg₁
  | some t₁ =>
    rcases hw₂ : walkLevel true va 1 t₁ m₁ with ⟨r₂, m₂⟩
    have hg₂ := walkLevel_grows hT₁ (.inl rfl) hr₁.symm hw₂
    simp only [hw₂] at h
    cases r₂ <;> obtain ⟨-, rfl⟩ := (by simpa using h : _ = r ∧ m₂ = m')
    · exact hg₁.trans hg₂
    · exact hg₁.trans hg₂

/-- An allocating walk takes at most two free pages, and fails only when fewer than two were
free. -/
theorem walk_alloc_free {r : Option Nat} (hva : va < MAXVA) (h : walk m pt va true = .ok (r, m')) :
    m.free.length ≤ m'.free.length + 2 ∧ (r = none → m.free.length ≤ 1) := by
  rw [walk, if_neg (Nat.not_le.mpr hva)] at h
  rcases hw₁ : walkLevel true va 2 pt m with ⟨r₁, m₁⟩
  obtain ⟨hc₁, hn₁⟩ := walkLevel_free hw₁
  rw [hw₁] at h
  cases r₁ with
  | none =>
    obtain ⟨-, rfl⟩ : none = r ∧ m₁ = m' := by simpa using h
    have h0 := hn₁ rfl
    simp only [h0, List.length_nil]
    omega
  | some t₁ =>
    rcases hw₂ : walkLevel true va 1 t₁ m₁ with ⟨r₂, m₂⟩
    obtain ⟨hc₂, hn₂⟩ := walkLevel_free hw₂
    simp only [hw₂] at h
    cases r₂ with
    | none =>
      -- the second turn found nothing free
      obtain ⟨-, rfl⟩ : none = r ∧ m₂ = m' := by simpa using h
      have h0 := hn₂ rfl
      simp only [h0, List.length_nil] at hc₁
      omega
    | some t₂ =>
      obtain ⟨rfl, rfl⟩ : some (t₂ + 8 * PX 0 va) = r ∧ m₂ = m' := by simpa using h
      exact ⟨by omega, fun hr => by cases hr⟩

/-! ## The pages a walk takes become tables -/

/-- `m'` keeps every table of `m` at its place, and a page free in `m` is free in `m'` or one of
its tables: what an allocating walk does with the pages it takes. -/
structure TablesFrom (m m' : Machine) (pt : Nat) : Prop where
  kept : ∀ va l t, m.table pt va l = some t → m'.table pt va l = some t
  taken : ∀ q ∈ m.free, q ∈ m'.free ∨ ∃ va l, l ≤ 2 ∧ m'.table pt va l = some q

theorem TablesFrom.refl (m : Machine) (pt : Nat) : TablesFrom m m pt :=
  ⟨fun _ _ _ h => h, fun _ hq => .inl hq⟩

theorem TablesFrom.trans {m₁ m₂ : Machine} (h₁ : TablesFrom m m₁ pt) (h₂ : TablesFrom m₁ m₂ pt) :
    TablesFrom m m₂ pt where
  kept va l t h := h₂.kept va l t (h₁.kept va l t h)
  taken q hq := (h₁.taken q hq).elim (h₂.taken q) fun ⟨va, l, hl, h⟩ =>
    .inr ⟨va, l, hl, h₂.kept va l q h⟩

/-- Filling an invalid entry keeps every table, since no path went through the entry, and the
page taken is the new table. -/
theorem attach_tablesFrom (hT : Tree m pt) (hl : l = 1 ∨ l = 2) (ht : m.table pt va l = some t)
    (hfree : m.free = p :: rest) (hinv : ¬ m.pte (t + 8 * PX l va) &&& PTE_V ≠ 0) :
    TablesFrom m (attach m (t + 8 * PX l va) p rest) pt where
  kept va' k t' h := by
    rw [attach_table hT hl ht hfree]
    by_cases hs : m.table pt va' l = some t ∧ PX l va' = PX l va
    · -- `va'` reads the filled entry, which was invalid: it had no table below level `l`
      rw [if_pos hs]
      have hbelow : m.table pt va' (l - 1) = none := by
        rw [Machine.table_pred hl hs.1, Machine.next, hs.2]
        exact if_neg hinv
      have hk : l ≤ k := by
        by_contra hk
        have hk' : k = l - 1 ∨ (k = 0 ∧ l = 2) := by omega
        rcases hk' with rfl | ⟨rfl, rfl⟩
        · rw [hbelow] at h
          cases h
        · rw [Machine.table_zero, show m.table pt va' 1 = none from hbelow] at h
          cases h
      rw [if_neg (by omega), if_neg (by omega)]
      exact h
    · rw [if_neg hs]
      exact h
  taken q hq := by
    rw [hfree] at hq
    rcases List.mem_cons.mp hq with rfl | hq
    · refine .inr ⟨va, l - 1, by omega, ?_⟩
      rw [attach_table hT hl ht hfree, if_pos ⟨ht, rfl⟩, if_pos (by omega)]
    · exact .inl hq

theorem walkLevel_tablesFrom {r : Option Nat} (hT : Tree m pt) (hl : l = 1 ∨ l = 2)
    (ht : m.table pt va l = some t) (h : walkLevel true va l t m = (r, m')) :
    TablesFrom m m' pt := by
  by_cases hv : m.pte (t + 8 * PX l va) &&& PTE_V ≠ 0
  · rw [walkLevel_valid hv, Prod.mk.injEq] at h
    rw [← h.2]
    exact TablesFrom.refl m pt
  · cases hfree : m.free with
    | nil =>
      rw [walkLevel_empty hv hfree, Prod.mk.injEq] at h
      rw [← h.2]
      exact TablesFrom.refl m pt
    | cons q rest =>
      rw [walkLevel_attach hv hfree, Prod.mk.injEq] at h
      rw [← h.2]
      exact attach_tablesFrom hT hl ht hfree hv

/-- The pages an allocating walk takes become tables of the tree. -/
theorem walk_alloc_tablesFrom {r : Option Nat} (hT : Tree m pt) (hva : va < MAXVA)
    (h : walk m pt va true = .ok (r, m')) : TablesFrom m m' pt := by
  rw [walk, if_neg (Nat.not_le.mpr hva)] at h
  rcases hw₁ : walkLevel true va 2 pt m with ⟨r₁, m₁⟩
  have hf₁ := walkLevel_tablesFrom hT (.inr rfl) (m.table_two pt va) hw₁
  obtain ⟨hT₁, -, hr₁, -⟩ := walkLevel_spec hT (.inr rfl) (m.table_two pt va) hw₁
  rw [hw₁] at h
  cases r₁ with
  | none =>
    obtain ⟨-, rfl⟩ : none = r ∧ m₁ = m' := by simpa using h
    exact hf₁
  | some t₁ =>
    rcases hw₂ : walkLevel true va 1 t₁ m₁ with ⟨r₂, m₂⟩
    have hf₂ := walkLevel_tablesFrom hT₁ (.inl rfl) hr₁.symm hw₂
    simp only [hw₂] at h
    cases r₂ <;> obtain ⟨-, rfl⟩ := (by simpa using h : _ = r ∧ m₂ = m')
    · exact hf₁.trans hf₂
    · exact hf₁.trans hf₂

/-- A store to a leaf entry keeps the tables and the free list. -/
theorem setPte_slot_tablesFrom (hT : Tree m pt) {a e v : Nat} (hs : m.slot pt a = some e) :
    TablesFrom m (m.setPte e v) pt :=
  ⟨fun va l _ h => (table_setPte_slot hT hs v va l).trans h, fun _ hq => .inl hq⟩

end Footprint

/-- One turn on a tree: the walk keeps the tree and the translations, and the store makes the
entry of `a`'s page, leaving the tables and every other page. -/
theorem mappages_turn {pt perm a pa e : Nat} {m m₁ : Machine} (hperm : perm < 2 ^ 10)
    (hT : Tree m pt) (ha : a < MAXVA) (hpa : pa < 2 ^ 64) (hw : walk m pt a true = .ok (some e, m₁)) :
    Tree (m₁.setPte e (leafPte pa perm)) pt ∧
      (m₁.setPte e (leafPte pa perm)).leaf pt a = some (leafPte pa perm) ∧
      ∀ a', a' < MAXVA → a' / PGSIZE ≠ a / PGSIZE →
        (m₁.setPte e (leafPte pa perm)).leaf pt a' = m.leaf pt a' := by
  obtain ⟨hT₁, hl₁, hs₁, -⟩ := walk_alloc_spec hT ha hw
  obtain ⟨hself, hother⟩ :=
    leaf_setPte_slot hT₁ ha hs₁.symm (leafPte_lt hpa hperm) (leafPte_valid pa perm)
  exact ⟨hT₁.congr (table_setPte_slot hT₁ hs₁.symm _) rfl, hself,
    fun a' ha' hne => (hother a' ha' hne).trans (hl₁ a')⟩

/-- When the loop of `mappages` returns `0` from a tree whose `k + 1` pages from `a` have no
valid translation, each of those pages is translated by the entry made for it, every other
page below `MAXVA` as before, and the tree is kept. -/
theorem mappagesLoop_spec {pt perm : Nat} (hperm : perm < 2 ^ 10) :
    ∀ (k a pa : Nat) {m m' : Machine}, Tree m pt → a + (k + 1) * PGSIZE ≤ MAXVA →
      pa + (k + 1) * PGSIZE ≤ 2 ^ 64 → (∀ j ≤ k, m.leaf pt (a + j * PGSIZE) = none) →
      mappagesLoop pt perm k a pa m = .ok (0, m') →
      Tree m' pt ∧ (∀ j ≤ k, m'.leaf pt (a + j * PGSIZE) = some (leafPte (pa + j * PGSIZE) perm)) ∧
        ∀ a', a' < MAXVA → (∀ j ≤ k, a' / PGSIZE ≠ (a + j * PGSIZE) / PGSIZE) →
          m'.leaf pt a' = m.leaf pt a' := by
  intro k
  -- induction on the pages left after `a`
  induction k with
  | zero =>
    intro a pa m m' hT htop hpa hnone h
    obtain ⟨e, m₁, hw, -, rfl⟩ := mappagesLoop_zero h
    have ha : a < MAXVA := by unfold PGSIZE at htop; omega
    have hpa₀ : pa < 2 ^ 64 := by unfold PGSIZE at hpa; omega
    obtain ⟨hT', hself, hother⟩ := mappages_turn hperm hT ha hpa₀ hw
    refine ⟨hT', fun j hj => ?_, fun a' ha' hne => hother a' ha' (by simpa using hne 0 le_rfl)⟩
    obtain rfl : j = 0 := by omega
    simpa using hself
  | succ k ih =>
    intro a pa m m' hT htop hpa hnone h
    obtain ⟨e, m₁, hw, -, hrest⟩ := mappagesLoop_succ h
    have ha : a < MAXVA := by unfold PGSIZE at htop; omega
    have hpa₀ : pa < 2 ^ 64 := by unfold PGSIZE at hpa; omega
    obtain ⟨hT₂, hself, hother⟩ := mappages_turn hperm hT ha hpa₀ hw
    -- the pages after `a` are the next turns' pages
    have hnext : ∀ j, a + PGSIZE + j * PGSIZE = a + (j + 1) * PGSIZE := by
      intro j
      unfold PGSIZE
      omega
    have hpnext : ∀ j, pa + PGSIZE + j * PGSIZE = pa + (j + 1) * PGSIZE := by
      intro j
      unfold PGSIZE
      omega
    have hpage : ∀ j, (a + (j + 1) * PGSIZE) / PGSIZE ≠ a / PGSIZE := by
      intro j
      unfold PGSIZE
      omega
    obtain ⟨hT', hmap, hframe⟩ := ih (a + PGSIZE) (pa + PGSIZE) hT₂
      (by rw [hnext]; unfold PGSIZE at htop ⊢; omega) (by unfold PGSIZE at hpa ⊢; omega)
      (fun j hj => by
        rw [hnext, hother _ (by unfold PGSIZE at htop ⊢; omega) (hpage j)]
        exact hnone (j + 1) (by omega))
      hrest
    refine ⟨hT', fun j hj => ?_, fun a' ha' hne => ?_⟩
    · cases j with
      | zero =>
        rw [Nat.zero_mul, Nat.add_zero, Nat.add_zero,
          hframe a ha fun j _ => by rw [hnext]; exact (hpage j).symm]
        exact hself
      | succ j =>
        have := hmap j (by omega)
        rwa [hnext, hpnext] at this
    · rw [hframe a' ha' fun j hj => by rw [hnext]; exact hne (j + 1) (by omega)]
      exact hother a' ha' (by simpa using hne 0 (by omega))

/-- `mappages` on a tree, with a page-aligned `pa` whose range does not wrap and `perm` inside
the ten flag bits, over a range none of whose pages is valid: when it returns `0`, `walk` finds
for every page of the range an entry naming its frame with flags `perm | PTE_V`, every page
outside the range keeps its translation, distinct pages have non-overlapping leaf entries, and
the table is still a tree. -/
theorem mappages_maps_range {m m' : Machine} {pt va size pa perm : Nat} (hT : Tree m pt)
    (hva : va % PGSIZE = 0) (hsize : size % PGSIZE = 0) (hpos : 0 < size) (htop : va + size ≤ MAXVA)
    (hpa : pa % PGSIZE = 0) (hwrap : pa + size ≤ 2 ^ 64) (hperm : perm < 2 ^ 10)
    (hnone : ∀ a, va ≤ a → a < va + size → m.leaf pt a = none)
    (h : mappages m pt va size pa perm = .ok (0, m')) :
    (∀ a, va ≤ a → a < va + size → a % PGSIZE = 0 → ∃ e, walk m' pt a false = .ok (some e, m') ∧
        PTE2PA (m'.pte e) = pa + (a - va) ∧ PTE_FLAGS (m'.pte e) = perm ||| PTE_V) ∧
      (∀ a, a < MAXVA → a < va ∨ va + size ≤ a → m'.leaf pt a = m.leaf pt a) ∧
      (∀ a a' e e', a < MAXVA → a' < MAXVA → a / PGSIZE ≠ a' / PGSIZE → m'.slot pt a = some e →
        m'.slot pt a' = some e' → e + 8 ≤ e' ∨ e' + 8 ≤ e) ∧
      Tree m' pt := by
  rw [mappages, if_neg (not_not.mpr hva), if_neg (not_not.mpr hsize), if_neg (by omega)] at h
  -- the loop runs once for each of the `k + 1` pages
  obtain ⟨k, rfl⟩ : ∃ k, size = (k + 1) * PGSIZE :=
    ⟨size / PGSIZE - 1, by unfold PGSIZE at hsize ⊢; omega⟩
  rw [show (k + 1) * PGSIZE / PGSIZE - 1 = k by unfold PGSIZE; omega] at h
  obtain ⟨hT', hmap, hframe⟩ := mappagesLoop_spec hperm k va pa hT htop hwrap
    (fun j hj => hnone _ (by omega) (by unfold PGSIZE; omega)) h
  refine ⟨fun a ha1 ha2 hal => ?_, fun a ha hout => ?_,
    fun a a' e e' ha ha' hne hs hs' => hT'.slot_apart ha ha' hne hs hs', hT'⟩
  · obtain ⟨j, rfl⟩ : ∃ j, a = va + j * PGSIZE :=
      ⟨(a - va) / PGSIZE, by unfold PGSIZE at hva hal ⊢; omega⟩
    have hj : j ≤ k := by unfold PGSIZE at ha2; omega
    obtain ⟨e, hs, -, he⟩ := Machine.leaf_eq_some.mp (hmap j hj)
    have hal' : (pa + j * PGSIZE) % PGSIZE = 0 := by unfold PGSIZE at hpa ⊢; omega
    have hlt : pa + j * PGSIZE < 2 ^ 64 := by unfold PGSIZE at hwrap ⊢; omega
    refine ⟨e, ?_, ?_, ?_⟩
    · rw [walk_false (by omega), hs]
    · rw [he, PTE2PA_leafPte hal' hlt hperm, Nat.add_sub_cancel_left]
    · rw [he, PTE_FLAGS_leafPte _ hperm]
  · apply hframe a ha
    intro j hj
    unfold PGSIZE at hva hout ⊢
    omega

/-- A machine with zeroed memory, an empty root table at `0x87000000` and the next two pages
free. -/
def freshMachine : Machine :=
  { mem := fun _ => 0, free := [0x87001000, 0x87002000], kend := 0x80040000 }

theorem freshMachine_root_empty (va : Nat) : freshMachine.next va 2 0x87000000 = none := by
  have hz : freshMachine.pte (0x87000000 + 8 * PX 2 va) = 0 := loadLE_eq_zero fun _ _ _ => rfl
  rw [Machine.next, hz]
  rfl

theorem freshMachine_tree : Tree freshMachine 0x87000000 :=
  Tree.of_root_empty (by decide) (by decide) freshMachine_root_empty (by decide) (by decide)
    (by decide)

/-- Two pages on an empty table: both go through the one level-0 table that the two free pages
become, each page translates to its own frame, and their entries are eight bytes apart. -/
theorem mappages_maps_two_pages : ∃ m',
    mappages freshMachine 0x87000000 0 (2 * PGSIZE) 0x87003000 PTE_R = .ok (0, m') ∧
    (∃ e, walk m' 0x87000000 0 false = .ok (some e, m') ∧ PTE2PA (m'.pte e) = 0x87003000 ∧
      PTE_FLAGS (m'.pte e) = PTE_R ||| PTE_V) ∧
    (∃ e, walk m' 0x87000000 PGSIZE false = .ok (some e, m') ∧
      PTE2PA (m'.pte e) = 0x87003000 + PGSIZE ∧ PTE_FLAGS (m'.pte e) = PTE_R ||| PTE_V) ∧
    m'.leaf 0x87000000 (2 * PGSIZE) = none ∧
    (∀ e e', m'.slot 0x87000000 0 = some e → m'.slot 0x87000000 PGSIZE = some e' →
      e + 8 ≤ e' ∨ e' + 8 ≤ e) := by
  have hrun : (mappages freshMachine 0x87000000 0 (2 * PGSIZE) 0x87003000 PTE_R).map Prod.fst =
      .ok 0 := by
    decide +kernel
  rcases h : mappages freshMachine 0x87000000 0 (2 * PGSIZE) 0x87003000 PTE_R with _ | ⟨c, m'⟩
  · rw [h] at hrun
    cases hrun
  · rw [h] at hrun
    cases hrun
    obtain ⟨hmap, hframe, hapart, -⟩ := mappages_maps_range freshMachine_tree (by decide)
      (by decide) (by decide) (by decide) (by decide) (by decide) (by decide)
      (fun a _ _ => Machine.leaf_of_root_empty freshMachine_root_empty a) h
    refine ⟨m', rfl, hmap 0 le_rfl (by decide) (by decide), hmap PGSIZE (by decide) (by decide)
      (by decide), ?_, fun e e' hs hs' => hapart 0 PGSIZE e e' (by decide) (by decide)
      (by decide) hs hs'⟩
    rw [hframe (2 * PGSIZE) (by decide) (.inr (by omega))]
    exact Machine.leaf_of_root_empty freshMachine_root_empty _

set_option maxRecDepth 20000 in
/-- With a `pa` off a page boundary the entry names the page below it: the page at `0` of an
empty table is mapped to `1` and translates to `0`. -/
theorem mappages_unaligned_pa : freshMachine.leaf 0x87000000 0 = none ∧
    (mappages freshMachine 0x87000000 0 PGSIZE 1 PTE_R).map
      (fun r => (r.1, (r.2.leaf 0x87000000 0).map PTE2PA)) = .ok (0, some 0) := by
  rw [mappages, mappagesLoop]
  decide

/-- `mappages` of one page with no translation, on a tree: it does not panic, and grows the
tree. It returns `0` with the page translated by the new entry and every other page as before,
or `-1`, when fewer than two pages were free, with every translation as before. -/
theorem mappages_page {m : Machine} {pt va pa perm : Nat} (hT : Tree m pt)
    (hva : va % PGSIZE = 0) (hlt : va < MAXVA) (hpa : pa < 2 ^ 64) (hperm : perm < 2 ^ 10)
    (hnone : m.leaf pt va = none) :
    ∃ r m', mappages m pt va PGSIZE pa perm = .ok (r, m') ∧ Tree m' pt ∧ Grows m m' pt ∧
      m.free.length ≤ m'.free.length + 2 ∧
      ((r = 0 ∧ m'.leaf pt va = some (leafPte pa perm) ∧
          ∀ a', a' < MAXVA → a' / PGSIZE ≠ va / PGSIZE → m'.leaf pt a' = m.leaf pt a') ∨
        (r = -1 ∧ m.free.length ≤ 1 ∧ ∀ a', m'.leaf pt a' = m.leaf pt a')) := by
  have hloop : mappages m pt va PGSIZE pa perm = mappagesLoop pt perm 0 va pa m := by
    rw [mappages, if_neg (not_not.mpr hva), if_neg (by decide), if_neg (by decide)]
    rfl
  obtain ⟨r, m₁, hw⟩ := walk_ok true hlt
  obtain ⟨hT₁, hl₁, hs₁, -⟩ := walk_alloc_spec hT hlt hw
  have hg₁ := walk_alloc_grows hT hlt hw
  obtain ⟨hc₁, hn₁⟩ := walk_alloc_free hlt hw
  cases r with
  | none =>
    refine ⟨-1, m₁, ?_, hT₁, hg₁, hc₁, .inr ⟨rfl, hn₁ rfl, hl₁⟩⟩
    rw [hloop, mappagesLoop, hw]
    rfl
  | some e =>
    -- the leaf entry is invalid, since the page had no translation
    have hinv : ¬ m₁.pte e &&& PTE_V ≠ 0 := by
      intro hv
      have hleaf : m₁.leaf pt va = some (m₁.pte e) := Machine.leaf_eq_some.mpr ⟨e, hs₁.symm, hv, rfl⟩
      rw [hl₁, hnone] at hleaf
      cases hleaf
    obtain ⟨hT', hself, hother⟩ := mappages_turn hperm hT hlt hpa hw
    refine ⟨0, m₁.setPte e (leafPte pa perm), ?_, hT', hg₁.trans (setPte_slot_grows hT₁ hs₁.symm),
      hc₁, .inl ⟨rfl, hself, hother⟩⟩
    rw [hloop, mappagesLoop, hw, ok_bind]
    dsimp only
    rw [if_neg hinv]
    rfl

/-- The pages that `mappages` of one page takes become tables. -/
theorem mappages_page_tablesFrom {m m' : Machine} {pt va pa perm : Nat} {r : Int} (hT : Tree m pt)
    (hva : va % PGSIZE = 0) (hlt : va < MAXVA) (h : mappages m pt va PGSIZE pa perm = .ok (r, m')) :
    TablesFrom m m' pt := by
  have hloop : mappages m pt va PGSIZE pa perm = mappagesLoop pt perm 0 va pa m := by
    rw [mappages, if_neg (not_not.mpr hva), if_neg (by decide), if_neg (by decide)]
    rfl
  obtain ⟨r₁, m₁, hw⟩ := walk_ok true hlt
  obtain ⟨hT₁, -, hs₁, -⟩ := walk_alloc_spec hT hlt hw
  have hf₁ := walk_alloc_tablesFrom hT hlt hw
  rw [hloop, mappagesLoop, hw, ok_bind] at h
  cases r₁ with
  | none =>
    cases h
    exact hf₁
  | some e =>
    dsimp only at h
    -- a valid entry panics, so the entry was stored
    split_ifs at h
    cases h
    exact hf₁.trans (setPte_slot_tablesFrom hT₁ hs₁.symm)

end Xv6.Vm
