import Xv6.Vm.Basic
import Xv6.Lib.Word

/-!
# Xv6.Vm.Walk — physical memory, `kalloc`, and the three-level walk of `kernel/vm.c`

Physical memory is a function from addresses to bytes, and a page table is pages of it: the
entry at address `e` is the eight bytes from `e` (`Machine.pte`). The allocator's free list is
kept as a list of page addresses, first page first; the `next` links `kfree` stores in the pages
are that list, so the model leaves those bytes as the junk `kfree` fills the page with.

`walk` is the source's loop over levels 2 and 1, one `walkLevel` each. Read without allocating,
it is a function of memory: `Machine.table` gives the table at each level of an address's path,
`Machine.slot` the leaf entry `walk(pt, va, 0)` returns, and `Machine.leaf` the valid entry that
translates the address.

`Tree m pt` is what makes that function a tree: its tables are whole pages, none of them on the
free list, and a table is reached at one level only, along one prefix of the address. Under it
a store outside the tables changes no path (`table_congr`), and the step of `walk` that fills an
invalid entry with a fresh table changes no translation and keeps the tree (`attach_leaf`,
`attach_tree`). So `walk(pt, va, 1)` returns the leaf entry of `va` in the new memory and
leaves every translation as it was (`walk_alloc_spec`).
-/

namespace Xv6.Vm

open Xv6.Lib

/-- `KERNBASE` of `memlayout.h`: the start of RAM. -/
def KERNBASE : Nat := 0x80000000

/-- `PHYSTOP` of `memlayout.h`: the end of the RAM the kernel uses. -/
def PHYSTOP : Nat := KERNBASE + 128 * 1024 * 1024

/-- Physical memory and the page allocator. -/
structure Machine where
  /-- the bytes of physical memory -/
  mem : Nat → UInt8
  /-- `kmem.freelist`, first page first -/
  free : List Nat
  /-- `end`: the first address after the kernel -/
  kend : Nat

namespace Machine

variable (m : Machine)

/-- The entry at address `e`: `*pte`. -/
def pte (e : Nat) : Nat := loadLE m.mem e 8

/-- `*pte = v`. -/
def setPte (e v : Nat) : Machine := { m with mem := storeLE m.mem e v 8 }

/-- `memset(pa, c, n)`. -/
def memset (pa : Nat) (c : UInt8) (n : Nat) : Machine :=
  { m with mem := copyBytes m.mem pa (fun _ => c) n }

/-- The table that `va`'s entry at `level` in the table `t` points to, when it is valid. -/
def next (va level t : Nat) : Option Nat :=
  if m.pte (t + 8 * PX level va) &&& PTE_V ≠ 0 then some (PTE2PA (m.pte (t + 8 * PX level va)))
  else none

/-- The level-`level` table on `va`'s path from the root `pt`. -/
def table (pt va : Nat) : Nat → Option Nat
  | 0 => (m.next va 2 pt).bind (m.next va 1)
  | 1 => m.next va 2 pt
  | _ => some pt

/-- The leaf entry of `va`, the address `walk(pt, va, 0)` returns. -/
def slot (pt va : Nat) : Option Nat := (m.table pt va 0).map (· + 8 * PX 0 va)

/-- The valid leaf entry that translates `va`. -/
def leaf (pt va : Nat) : Option Nat :=
  (m.slot pt va).bind fun e => if m.pte e &&& PTE_V ≠ 0 then some (m.pte e) else none

end Machine

/-- `kalloc`: the first free page, filled with junk; `none` is its `0`. -/
def kalloc (m : Machine) : Option Nat × Machine :=
  match m.free with
  | [] => (none, m)
  | p :: rest => (some p, { m with free := rest }.memset p 5 PGSIZE)

/-- `kfree`: the page, filled with junk, goes back at the head of the list. -/
def kfree (m : Machine) (pa : Nat) : Except String Machine :=
  if pa % PGSIZE ≠ 0 ∨ pa < m.kend ∨ pa ≥ PHYSTOP then .error "kfree"
  else .ok { m.memset pa 1 PGSIZE with free := pa :: m.free }

/-- One turn of `walk`'s loop: `va`'s entry at `level` in the table `t`, followed when it is
valid, and otherwise, with `alloc`, pointed at a fresh zeroed table. -/
def walkLevel (alloc : Bool) (va level t : Nat) (m : Machine) : Option Nat × Machine :=
  let e := t + 8 * PX level va
  if m.pte e &&& PTE_V ≠ 0 then (some (PTE2PA (m.pte e)), m)
  else if !alloc then (none, m)
  else
    match kalloc m with
    | (none, m) => (none, m)
    | (some p, m) => (some p, (m.memset p 0 PGSIZE).setPte e (PA2PTE p ||| PTE_V))

/-- `walk(pagetable, va, alloc)`: the address of `va`'s leaf entry, `none` for `0`. -/
def walk (m : Machine) (pt va : Nat) (alloc : Bool) : Except String (Option Nat × Machine) :=
  if va ≥ MAXVA then .error "walk"
  else
    match walkLevel alloc va 2 pt m with
    | (none, m) => .ok (none, m)
    | (some t, m) =>
      match walkLevel alloc va 1 t m with
      | (none, m) => .ok (none, m)
      | (some t, m) => .ok (some (t + 8 * PX 0 va), m)

/-- `walkaddr`: the physical page of a valid user entry, `0` for none. -/
def walkaddr (m : Machine) (pt va : Nat) : Nat :=
  if va ≥ MAXVA then 0
  else
    match walk m pt va false with
    | .ok (some e, _) =>
      if m.pte e &&& PTE_V = 0 then 0
      else if m.pte e &&& PTE_U = 0 then 0
      else PTE2PA (m.pte e)
    | _ => 0

/-- The loop of `mappages` at `a` and `pa`, `k` pages before `last`: `a == last` exactly when
`k = 0`. The result is the return value, `0` or `-1`. -/
def mappagesLoop (pt perm : Nat) : Nat → Nat → Nat → Machine → Except String (Int × Machine)
  | k, a, pa, m => do
    let (e, m) ← walk m pt a true
    match e with
    | none => pure (-1, m)
    | some e =>
      if m.pte e &&& PTE_V ≠ 0 then throw "mappages: remap"
      else
        let m := m.setPte e (leafPte pa perm)
        match k with
        | 0 => pure (0, m)
        | k + 1 => mappagesLoop pt perm k (a + PGSIZE) (pa + PGSIZE) m

/-- `mappages(pagetable, va, size, pa, perm)`. -/
def mappages (m : Machine) (pt va size pa perm : Nat) : Except String (Int × Machine) :=
  if va % PGSIZE ≠ 0 then throw "mappages: va not aligned"
  else if size % PGSIZE ≠ 0 then throw "mappages: size not aligned"
  else if size = 0 then throw "mappages: size"
  else mappagesLoop pt perm (size / PGSIZE - 1) va pa m

/-! ## Entries in memory -/

namespace Machine

variable {m : Machine} {e e' pa i v : Nat} {c : UInt8}

@[simp] theorem setPte_free : (m.setPte e v).free = m.free := rfl
@[simp] theorem setPte_kend : (m.setPte e v).kend = m.kend := rfl
@[simp] theorem memset_free : (m.memset pa c i).free = m.free := rfl
@[simp] theorem memset_kend : (m.memset pa c i).kend = m.kend := rfl

theorem pte_lt (m : Machine) (e : Nat) : m.pte e < 2 ^ 64 := loadLE_lt m.mem e 8

theorem pte_setPte_self : (m.setPte e v).pte e = v % 2 ^ 64 := loadLE_storeLE m.mem e v 8

/-- A store of an entry leaves every entry it does not overlap. -/
theorem pte_setPte_of_apart (h : e' + 8 ≤ e ∨ e + 8 ≤ e') : (m.setPte e v).pte e' = m.pte e' :=
  loadLE_storeLE_of_disjoint h

/-- A `memset` leaves every entry outside it. -/
theorem pte_memset_of_apart (h : e' + 8 ≤ pa ∨ pa + i ≤ e') : (m.memset pa c i).pte e' = m.pte e' :=
  loadLE_copyBytes_of_disjoint _ h

/-- An entry inside a zeroed range is `0`. -/
theorem pte_memset_zero (h1 : pa ≤ e') (h2 : e' + 8 ≤ pa + i) : (m.memset pa 0 i).pte e' = 0 :=
  loadLE_eq_zero fun _ hj1 hj2 => copyBytes_of_mem m.mem (fun _ => 0) (by omega) (by omega)

/-- Two machines that agree on an entry's eight bytes read the same entry there. -/
theorem pte_congr {m' : Machine} (h : ∀ i, e ≤ i → i < e + 8 → m'.mem i = m.mem i) :
    m'.pte e = m.pte e :=
  loadLE_congr h

end Machine

/-- An entry lies inside its table's page. -/
theorem entry_mem_page (t level va : Nat) :
    t ≤ t + 8 * PX level va ∧ t + 8 * PX level va + 8 ≤ t + PGSIZE := by
  have := PX_lt level va
  unfold PGSIZE
  omega

/-- Entries of two aligned tables do not overlap unless they are the same entry. -/
theorem entries_apart {t t' i j : Nat} (ht : t % PGSIZE = 0) (ht' : t' % PGSIZE = 0)
    (hi : i < 512) (hj : j < 512) (hne : t ≠ t' ∨ i ≠ j) :
    t + 8 * i + 8 ≤ t' + 8 * j ∨ t' + 8 * j + 8 ≤ t + 8 * i := by
  unfold PGSIZE at ht ht'
  omega

/-- An entry of an aligned table lies outside every other aligned page. -/
theorem entry_off_page {t p i : Nat} (ht : t % PGSIZE = 0) (hp : p % PGSIZE = 0) (hi : i < 512)
    (hne : t ≠ p) : t + 8 * i + 8 ≤ p ∨ p + PGSIZE ≤ t + 8 * i := by
  unfold PGSIZE at ht hp ⊢
  omega

/-! ## The tree -/

/-- `i` lies in the page of a level-`l` table on some address's path from `pt`. -/
def Machine.InTable (m : Machine) (pt l i : Nat) : Prop :=
  ∃ va t, m.table pt va l = some t ∧ t ≤ i ∧ i < t + PGSIZE

/-- The page table at `pt` is a tree of whole pages, none of them free, and the free list holds
distinct pages of RAM. -/
structure Tree (m : Machine) (pt : Nat) : Prop where
  aligned : ∀ va l t, m.table pt va l = some t → t % PGSIZE = 0
  not_free : ∀ va l t, m.table pt va l = some t → t ∉ m.free
  /-- a table is reached at one level only, along one prefix of the address -/
  inj : ∀ va va' l l' t, l ≤ 2 → l' ≤ 2 → m.table pt va l = some t → m.table pt va' l' = some t →
    l = l' ∧ ∀ k, l < k → k ≤ 2 → PX k va = PX k va'
  free_aligned : ∀ p ∈ m.free, p % PGSIZE = 0
  free_lt : ∀ p ∈ m.free, p < PHYSTOP
  free_nodup : m.free.Nodup

theorem Machine.table_two (m : Machine) (pt va : Nat) : m.table pt va 2 = some pt := rfl

theorem Machine.table_one (m : Machine) (pt va : Nat) : m.table pt va 1 = m.next va 2 pt := rfl

theorem Machine.table_zero (m : Machine) (pt va : Nat) :
    m.table pt va 0 = (m.table pt va 1).bind (m.next va 1) := rfl

/-- `next` reads one entry of the table's page. -/
theorem Machine.next_congr {m m' : Machine} {va l t : Nat}
    (h : ∀ i, t ≤ i → i < t + PGSIZE → m'.mem i = m.mem i) : m'.next va l t = m.next va l t := by
  have hp := entry_mem_page t l va
  have he : m'.pte (t + 8 * PX l va) = m.pte (t + 8 * PX l va) :=
    Machine.pte_congr fun i h1 h2 => h i (by omega) (by omega)
  simp only [Machine.next, he]

/-- Two machines that agree on the pages of `m`'s tables at levels 2 and 1 have the same
paths. -/
theorem table_congr {m m' : Machine} {pt : Nat}
    (h : ∀ i, m.InTable pt 2 i ∨ m.InTable pt 1 i → m'.mem i = m.mem i) (va l : Nat) :
    m'.table pt va l = m.table pt va l := by
  have h2 : m'.next va 2 pt = m.next va 2 pt :=
    Machine.next_congr fun i h1 h2 => h i (.inl ⟨va, pt, rfl, h1, h2⟩)
  match l with
  | 0 =>
    rw [Machine.table_zero, Machine.table_zero, Machine.table_one, Machine.table_one, h2]
    cases ht : m.next va 2 pt with
    | none => rfl
    | some t => exact Machine.next_congr fun i h1 h2 => h i (.inr ⟨va, t, ht, h1, h2⟩)
  | 1 => exact h2
  | _ + 2 => rfl

/-! ## One level of `walk` -/

/-- The machine after `walkLevel` fills the invalid entry `e` with the page `p` that `kalloc`
took from the front of the free list. -/
def attach (m : Machine) (e p : Nat) (rest : List Nat) : Machine :=
  (({ m with free := rest }.memset p 5 PGSIZE).memset p 0 PGSIZE).setPte e (PA2PTE p ||| PTE_V)

section Level

variable {m : Machine} {va l t : Nat}

theorem walkLevel_false : walkLevel false va l t m = (m.next va l t, m) := by
  unfold walkLevel Machine.next
  by_cases h : m.pte (t + 8 * PX l va) &&& PTE_V ≠ 0
  · rw [if_pos h, if_pos h]
  · rw [if_neg h, if_neg h]
    rfl

theorem walkLevel_valid (h : m.pte (t + 8 * PX l va) &&& PTE_V ≠ 0) :
    walkLevel true va l t m = (m.next va l t, m) := by
  unfold walkLevel Machine.next
  rw [if_pos h, if_pos h]

/-- With the entry invalid and nothing free, the walk stops. -/
theorem walkLevel_empty (h : ¬ m.pte (t + 8 * PX l va) &&& PTE_V ≠ 0) (hfree : m.free = []) :
    walkLevel true va l t m = (none, m) := by
  simp only [walkLevel, h, if_false, Bool.not_true, kalloc, hfree]
  rfl

/-- With the entry invalid, the first free page becomes the next table. -/
theorem walkLevel_attach {p : Nat} {rest : List Nat} (h : ¬ m.pte (t + 8 * PX l va) &&& PTE_V ≠ 0)
    (hfree : m.free = p :: rest) :
    walkLevel true va l t m = (some p, attach m (t + 8 * PX l va) p rest) := by
  simp only [walkLevel, h, if_false, Bool.not_true, kalloc, hfree]
  rfl

end Level

/-- Read without allocating, `walk` is the path function and changes nothing. -/
theorem walk_false {m : Machine} {pt va : Nat} (hva : va < MAXVA) :
    walk m pt va false = .ok (m.slot pt va, m) := by
  rw [walk, if_neg (Nat.not_le.mpr hva), walkLevel_false]
  cases h2 : m.next va 2 pt with
  | none => simp [Machine.slot, Machine.table, h2]
  | some t =>
    simp only [walkLevel_false]
    cases h1 : m.next va 1 t with
    | none => simp [Machine.slot, Machine.table, h2, h1]
    | some t' => simp [Machine.slot, Machine.table, h2, h1]

/-! ## Filling an entry with a fresh table -/

/-- The entry `walk` stores for a new table: the table's page number, valid. -/
theorem tablePte_eq (p : Nat) : PA2PTE p ||| PTE_V = leafPte p 0 := by
  rw [leafPte, Nat.or_zero]

section Attach

variable {m : Machine} {pt va l t p : Nat} {rest : List Nat}

/-- The page `kalloc` takes is none of the tree's tables. -/
theorem Tree.ne_fresh (hT : Tree m pt) (hfree : m.free = p :: rest) {va' l' t' : Nat}
    (h : m.table pt va' l' = some t') : t' ≠ p := by
  rintro rfl
  exact hT.not_free va' l' t' h (hfree ▸ List.mem_cons_self)

theorem Tree.fresh_aligned (hT : Tree m pt) (hfree : m.free = p :: rest) : p % PGSIZE = 0 :=
  hT.free_aligned p (hfree ▸ List.mem_cons_self)

theorem Tree.fresh_lt (hT : Tree m pt) (hfree : m.free = p :: rest) : p < 2 ^ 64 := by
  have := hT.free_lt p (hfree ▸ List.mem_cons_self)
  unfold PHYSTOP KERNBASE at this
  omega

@[simp] theorem attach_free {e : Nat} : (attach m e p rest).free = rest := rfl

theorem attach_pte_self {e : Nat} (hp : p < 2 ^ 64) :
    (attach m e p rest).pte e = PA2PTE p ||| PTE_V := by
  rw [attach, Machine.pte_setPte_self, tablePte_eq,
    Nat.mod_eq_of_lt (leafPte_lt hp (by decide))]

/-- An entry away from the filled entry and from the new page is unchanged. -/
theorem attach_pte_of_apart {e e' : Nat} (he : e' + 8 ≤ e ∨ e + 8 ≤ e')
    (hp : e' + 8 ≤ p ∨ p + PGSIZE ≤ e') : (attach m e p rest).pte e' = m.pte e' := by
  rw [attach, Machine.pte_setPte_of_apart he, Machine.pte_memset_of_apart hp,
    Machine.pte_memset_of_apart hp]
  rfl

/-- Every entry of the new table is `0`. -/
theorem attach_pte_page {e e' : Nat} (he : e + 8 ≤ p ∨ p + PGSIZE ≤ e) (h1 : p ≤ e')
    (h2 : e' + 8 ≤ p + PGSIZE) : (attach m e p rest).pte e' = 0 := by
  rw [attach, Machine.pte_setPte_of_apart (by omega), Machine.pte_memset_zero h1 h2]

/-- The filled entry now leads to the new table. -/
theorem attach_next_self (hp_al : p % PGSIZE = 0) (hp : p < 2 ^ 64) {va' : Nat}
    (hx : PX l va' = PX l va) : (attach m (t + 8 * PX l va) p rest).next va' l t = some p := by
  have hv := leafPte_valid p 0
  rw [Machine.next, hx, attach_pte_self hp, tablePte_eq, if_pos hv,
    PTE2PA_leafPte hp_al hp (by decide)]

/-- Every entry of the new table is invalid. -/
theorem attach_next_fresh {e : Nat} (he : e + 8 ≤ p ∨ p + PGSIZE ≤ e) (va' l' : Nat) :
    (attach m e p rest).next va' l' p = none := by
  have hpg := entry_mem_page p l' va'
  rw [Machine.next, attach_pte_page he hpg.1 hpg.2]
  simp

/-- Any other entry reads as before. -/
theorem attach_next_of_apart {e t' va' l' : Nat}
    (he : t' + 8 * PX l' va' + 8 ≤ e ∨ e + 8 ≤ t' + 8 * PX l' va')
    (hp : t' + 8 * PX l' va' + 8 ≤ p ∨ p + PGSIZE ≤ t' + 8 * PX l' va') :
    (attach m e p rest).next va' l' t' = m.next va' l' t' := by
  rw [Machine.next, Machine.next, attach_pte_of_apart he hp]

/-- Two tables of the tree at different levels are different pages. -/
theorem Tree.ne_of_level (hT : Tree m pt) {va va' l l' t t' : Nat} (hl : l ≤ 2) (hl' : l' ≤ 2)
    (hne : l ≠ l') (h : m.table pt va l = some t) (h' : m.table pt va' l' = some t') : t ≠ t' := by
  rintro rfl
  exact hne (hT.inj va va' l l' t hl hl' h h').1

/-- An entry of one table of the tree, read for `va'`, and the entry of another table or of
another index, do not overlap. -/
theorem Tree.entries_apart (hT : Tree m pt) {va₁ va₂ l₁ l₂ t₁ t₂ : Nat}
    (h₁ : m.table pt va₁ l₁ = some t₁) (h₂ : m.table pt va₂ l₂ = some t₂)
    (hne : t₁ ≠ t₂ ∨ PX l₁ va₁ ≠ PX l₂ va₂) :
    t₁ + 8 * PX l₁ va₁ + 8 ≤ t₂ + 8 * PX l₂ va₂ ∨ t₂ + 8 * PX l₂ va₂ + 8 ≤ t₁ + 8 * PX l₁ va₁ :=
  Xv6.Vm.entries_apart (hT.aligned _ _ _ h₁) (hT.aligned _ _ _ h₂) (PX_lt _ _) (PX_lt _ _) hne

/-- An entry of a table of the tree lies off the page `kalloc` takes. -/
theorem Tree.entry_off_fresh (hT : Tree m pt) (hfree : m.free = p :: rest) {va' l' t' : Nat}
    (h : m.table pt va' l' = some t') :
    t' + 8 * PX l' va' + 8 ≤ p ∨ p + PGSIZE ≤ t' + 8 * PX l' va' :=
  entry_off_page (hT.aligned _ _ _ h) (hT.fresh_aligned hfree) (PX_lt _ _) (hT.ne_fresh hfree h)

/-- The paths after the fill. An address that reads the filled entry (its level-`l` table is
`t` and its index there is `va`'s) now has the new table at level `l - 1` and nothing below;
every other path is as before. -/
theorem attach_table (hT : Tree m pt) (hl : l = 1 ∨ l = 2) (ht : m.table pt va l = some t)
    (hfree : m.free = p :: rest) (va' k : Nat) :
    (attach m (t + 8 * PX l va) p rest).table pt va' k =
      if m.table pt va' l = some t ∧ PX l va' = PX l va then
        (if k + 1 = l then some p else if k + 1 < l then none else m.table pt va' k)
      else m.table pt va' k := by
  have hp_al := hT.fresh_aligned hfree
  have hp := hT.fresh_lt hfree
  have he := hT.entry_off_fresh hfree ht
  -- the level-2 entry of `va'` is the filled one only when `l = 2` and `va'` shares it
  have h2 : ¬ (l = 2 ∧ PX 2 va' = PX 2 va) →
      (attach m (t + 8 * PX l va) p rest).next va' 2 pt = m.next va' 2 pt := by
    intro hn
    apply attach_next_of_apart _ (hT.entry_off_fresh hfree (m.table_two pt va'))
    apply hT.entries_apart (m.table_two pt va') ht
    rcases hl with rfl | rfl
    · exact .inl (hT.ne_of_level (by omega) (by omega) (by omega) (m.table_two pt va') ht)
    · exact .inr fun hx => hn ⟨rfl, hx⟩
  split_ifs with hs hk hk'
  · -- `va'` shares the entry and `k = l - 1`: the new table
    obtain ⟨hs1, hs2⟩ := hs
    rcases hl with rfl | rfl
    · obtain rfl : k = 0 := by omega
      rw [Machine.table_zero, Machine.table_one, h2 (by omega), ← Machine.table_one, hs1]
      exact attach_next_self hp_al hp hs2
    · obtain rfl : k = 1 := by omega
      have htp : t = pt := (Option.some_inj.mp ((m.table_two pt va).symm.trans ht)).symm
      subst htp
      rw [Machine.table_one]
      exact attach_next_self hp_al hp hs2
  · -- `va'` shares the entry and `k < l - 1`: below the new, empty table
    obtain ⟨-, hs2⟩ := hs
    obtain ⟨rfl, rfl⟩ : l = 2 ∧ k = 0 := by omega
    have htp : t = pt := (Option.some_inj.mp ((m.table_two pt va).symm.trans ht)).symm
    subst htp
    rw [Machine.table_zero, Machine.table_one, attach_next_self hp_al hp hs2]
    exact attach_next_fresh he va' 1
  · -- `va'` shares the entry and `k ≥ l`: the path above it is unchanged
    match k with
    | 0 => omega
    | 1 => rcases hl with rfl | rfl <;> [exact h2 (by omega); omega]
    | _ + 2 => rfl
  · -- `va'` does not share the entry
    have hn2 : ¬ (l = 2 ∧ PX 2 va' = PX 2 va) := by
      rintro ⟨rfl, hx⟩
      exact hs ⟨(m.table_two pt va').trans ((m.table_two pt va).symm.trans ht), hx⟩
    match k with
    | 0 =>
      rw [Machine.table_zero, Machine.table_zero, Machine.table_one, Machine.table_one, h2 hn2]
      cases h1 : m.next va' 2 pt with
      | none => rw [Option.bind_none, Option.bind_none]
      | some t1 =>
        have h1' : m.table pt va' 1 = some t1 := h1
        rw [Option.bind_some, Option.bind_some]
        apply attach_next_of_apart _ (hT.entry_off_fresh hfree h1')
        apply hT.entries_apart h1' ht
        rcases hl with rfl | rfl
        · by_cases htt : t1 = t
          · exact .inr fun hx => hs ⟨htt ▸ h1', hx⟩
          · exact .inl htt
        · exact .inl (hT.ne_of_level (by omega) (by omega) (by omega) h1' ht)
    | 1 => exact h2 hn2
    | _ + 2 => rfl

/-- An address whose level-0 table and leaf entry read the same has the same translation. -/
theorem leaf_eq_of_table {m' : Machine} {va' : Nat} (h : m'.table pt va' 0 = m.table pt va' 0)
    (hpte : ∀ t0, m.table pt va' 0 = some t0 → m'.pte (t0 + 8 * PX 0 va') = m.pte (t0 + 8 * PX 0 va')) :
    m'.leaf pt va' = m.leaf pt va' := by
  unfold Machine.leaf Machine.slot
  rw [h]
  cases h0 : m.table pt va' 0 with
  | none => rfl
  | some t0 => simp only [Option.map_some, Option.bind_some, hpte t0 h0]

/-- Filling an invalid entry changes no translation: the addresses that read it had none, and
find only the new, empty table. -/
theorem attach_leaf (hT : Tree m pt) (hl : l = 1 ∨ l = 2) (ht : m.table pt va l = some t)
    (hinv : ¬ m.pte (t + 8 * PX l va) &&& PTE_V ≠ 0) (hfree : m.free = p :: rest) (va' : Nat) :
    (attach m (t + 8 * PX l va) p rest).leaf pt va' = m.leaf pt va' := by
  have he := hT.entry_off_fresh hfree ht
  by_cases hs : m.table pt va' l = some t ∧ PX l va' = PX l va
  · -- `va'` reads the filled entry: it had no level-`(l - 1)` table, and has no valid leaf now
    have hnext : m.next va' l t = none := by
      rw [Machine.next, hs.2, if_neg hinv]
    have hold : m.table pt va' 0 = none := by
      rcases hl with rfl | rfl
      · rw [Machine.table_zero, hs.1, Option.bind_some, hnext]
      · have htp : t = pt := (Option.some_inj.mp ((m.table_two pt va).symm.trans ht)).symm
        subst htp
        rw [Machine.table_zero, Machine.table_one, hnext, Option.bind_none]
    have h0 := attach_table hT hl ht hfree va' 0
    rw [if_pos hs] at h0
    unfold Machine.leaf Machine.slot
    rw [hold, h0]
    rcases hl with rfl | rfl
    · -- the new table is at level 0: its entry for `va'` is `0`
      have hpg := entry_mem_page p 0 va'
      simp only [if_true, Option.map_some, Option.bind_some, Option.map_none, Option.bind_none,
        attach_pte_page he hpg.1 hpg.2, Nat.zero_and, ne_eq, not_true_eq_false, if_false]
    · simp only [show ¬ (0 + 1 = 2) by omega, show 0 + 1 < 2 by omega, if_true, if_false,
        Option.map_none, Option.bind_none]
  · -- every other address reads entries away from the filled one and from the new page
    apply leaf_eq_of_table
    · rw [attach_table hT hl ht hfree va' 0, if_neg hs]
    · intro t0 h0
      apply attach_pte_of_apart _ (hT.entry_off_fresh hfree h0)
      exact hT.entries_apart h0 ht (.inl (hT.ne_of_level (by omega) (by omega) (by omega) h0 ht))

/-- A table after the fill is the new page, reached at level `l - 1` through the filled entry,
or a table of the tree before. -/
theorem attach_table_cases (hT : Tree m pt) (hl : l = 1 ∨ l = 2) (ht : m.table pt va l = some t)
    (hfree : m.free = p :: rest) {va' k t' : Nat}
    (h : (attach m (t + 8 * PX l va) p rest).table pt va' k = some t') :
    (t' = p ∧ k + 1 = l ∧ m.table pt va' l = some t ∧ PX l va' = PX l va) ∨
      m.table pt va' k = some t' := by
  rw [attach_table hT hl ht hfree] at h
  by_cases hs : m.table pt va' l = some t ∧ PX l va' = PX l va
  · rw [if_pos hs] at h
    by_cases hk : k + 1 = l
    · rw [if_pos hk] at h
      exact .inl ⟨(Option.some_inj.mp h).symm, hk, hs⟩
    · rw [if_neg hk] at h
      by_cases hk' : k + 1 < l
      · rw [if_pos hk'] at h
        cases h
      · rw [if_neg hk'] at h
        exact .inr h
  · rw [if_neg hs] at h
    exact .inr h

/-- Filling an invalid entry keeps the tree. -/
theorem attach_tree (hT : Tree m pt) (hl : l = 1 ∨ l = 2) (ht : m.table pt va l = some t)
    (hfree : m.free = p :: rest) : Tree (attach m (t + 8 * PX l va) p rest) pt := by
  have hnd := hfree ▸ hT.free_nodup
  have hrest : ∀ q ∈ rest, q ∈ m.free := fun q hq => hfree ▸ List.mem_cons_of_mem p hq
  constructor
  · intro va' k t' h
    rcases attach_table_cases hT hl ht hfree h with ⟨rfl, -⟩ | h
    · exact hT.fresh_aligned hfree
    · exact hT.aligned va' k t' h
  · intro va' k t' h
    rw [attach_free]
    rcases attach_table_cases hT hl ht hfree h with ⟨rfl, -⟩ | h
    · exact (List.nodup_cons.mp hnd).1
    · exact fun hm => hT.not_free va' k t' h (hrest t' hm)
  · intro va₁ va₂ k₁ k₂ τ hk₁ hk₂ h₁ h₂
    rcases attach_table_cases hT hl ht hfree h₁ with ⟨rfl, e₁, s₁, x₁⟩ | h₁ <;>
      rcases attach_table_cases hT hl ht hfree h₂ with ⟨hτ, e₂, s₂, x₂⟩ | h₂
    · -- both reach the new table: through the same entry
      refine ⟨by omega, fun k hk hk2 => ?_⟩
      by_cases hkl : k = l
      · subst hkl
        exact x₁.trans x₂.symm
      · exact (hT.inj va₁ va₂ l l t (by omega) (by omega) s₁ s₂).2 k (by omega) hk2
    · exact absurd rfl (hT.ne_fresh hfree h₂)
    · exact absurd hτ (hT.ne_fresh hfree h₁)
    · exact hT.inj va₁ va₂ k₁ k₂ τ hk₁ hk₂ h₁ h₂
  · intro q hq
    exact hT.free_aligned q (hrest q hq)
  · intro q hq
    exact hT.free_lt q (hrest q hq)
  · exact (List.nodup_cons.mp hnd).2

end Attach

/-! ## `walk` -/

/-- The table below `t` on `va`'s path is where `va`'s entry in `t` leads. -/
theorem Machine.table_pred {m : Machine} {pt va l t : Nat} (hl : l = 1 ∨ l = 2)
    (ht : m.table pt va l = some t) : m.table pt va (l - 1) = m.next va l t := by
  rcases hl with rfl | rfl
  · rw [Nat.sub_self, Machine.table_zero, ht, Option.bind_some]
  · have htp : t = pt := (Option.some_inj.mp ((m.table_two pt va).symm.trans ht)).symm
    subst htp
    rfl

/-- One allocating turn of `walk` at a table of the tree: it returns the next table of the
path in the new memory, keeps the tree and every translation, and stops only when the free list
is empty. -/
theorem walkLevel_spec {m m' : Machine} {pt va l t : Nat} {r : Option Nat} (hT : Tree m pt)
    (hl : l = 1 ∨ l = 2) (ht : m.table pt va l = some t) (h : walkLevel true va l t m = (r, m')) :
    Tree m' pt ∧ (∀ va', m'.leaf pt va' = m.leaf pt va') ∧ r = m'.table pt va (l - 1) ∧
      (r = none → m'.free = []) := by
  by_cases hv : m.pte (t + 8 * PX l va) &&& PTE_V ≠ 0
  · -- a valid entry is followed
    rw [walkLevel_valid hv, Prod.mk.injEq] at h
    obtain ⟨rfl, rfl⟩ := h
    refine ⟨hT, fun _ => rfl, (Machine.table_pred hl ht).symm, fun hr => ?_⟩
    rw [Machine.next, if_pos hv] at hr
    cases hr
  · have hnext : m.next va l t = none := by rw [Machine.next, if_neg hv]
    cases hfree : m.free with
    | nil =>
      -- nothing to allocate
      rw [walkLevel_empty hv hfree, Prod.mk.injEq] at h
      obtain ⟨rfl, rfl⟩ := h
      exact ⟨hT, fun _ => rfl, by rw [Machine.table_pred hl ht, hnext], fun _ => hfree⟩
    | cons p rest =>
      -- the first free page becomes the next table
      rw [walkLevel_attach hv hfree, Prod.mk.injEq] at h
      obtain ⟨rfl, rfl⟩ := h
      refine ⟨attach_tree hT hl ht hfree, attach_leaf hT hl ht hv hfree, ?_, nofun⟩
      rw [attach_table hT hl ht hfree, if_pos ⟨ht, rfl⟩, if_pos (by omega)]

/-- `walk(pt, va, 1)` on a tree: it returns `va`'s leaf entry in the new memory, or `0` only
when the free list ran out, and it keeps the tree and every translation. -/
theorem walk_alloc_spec {m m' : Machine} {pt va : Nat} {r : Option Nat} (hT : Tree m pt)
    (hva : va < MAXVA) (h : walk m pt va true = .ok (r, m')) :
    Tree m' pt ∧ (∀ va', m'.leaf pt va' = m.leaf pt va') ∧ r = m'.slot pt va ∧
      (r = none → m'.free = []) := by
  rw [walk, if_neg (Nat.not_le.mpr hva)] at h
  -- level 2, from the root
  rcases hw₁ : walkLevel true va 2 pt m with ⟨r₁, m₁⟩
  obtain ⟨hT₁, hl₁, hr₁, hf₁⟩ := walkLevel_spec hT (.inr rfl) (m.table_two pt va) hw₁
  rw [hw₁] at h
  cases r₁ with
  | none =>
    obtain ⟨rfl, rfl⟩ : none = r ∧ m₁ = m' := by simpa using h
    refine ⟨hT₁, hl₁, ?_, fun _ => hf₁ rfl⟩
    rw [Machine.slot, Machine.table_zero, ← hr₁]
    rfl
  | some t₁ =>
    -- level 1, from the table level 2 led to
    rcases hw₂ : walkLevel true va 1 t₁ m₁ with ⟨r₂, m₂⟩
    obtain ⟨hT₂, hl₂, hr₂, hf₂⟩ := walkLevel_spec hT₁ (.inl rfl) hr₁.symm hw₂
    simp only [hw₂] at h
    refine ⟨?_, fun va' => ?_, ?_, ?_⟩ <;> cases r₂ <;>
      obtain ⟨rfl, rfl⟩ := (by simpa using h : _ = r ∧ m₂ = m')
    · exact hT₂
    · exact hT₂
    · exact (hl₂ va').trans (hl₁ va')
    · exact (hl₂ va').trans (hl₁ va')
    · rw [Machine.slot, ← hr₂]
      rfl
    · rw [Machine.slot, ← hr₂]
      rfl
    · exact fun _ => hf₂ rfl
    · exact nofun

end Xv6.Vm
