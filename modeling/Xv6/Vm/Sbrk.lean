import Xv6.Vm.Uvm
import Xv6.Vm.Copy
import Xv6.User.Umalloc

/-!
# Xv6.Vm.Sbrk — the size of a process: `growproc`, `sys_sbrk` and page faults

A process changes its memory through `sys_sbrk(n, t)`: eagerly with `growproc(n)`, which maps
the new pages with `uvmalloc` or unmaps the pages past the new size with `uvmdealloc`, or lazily,
by raising `p->sz` alone and leaving the pages to `vmfault` when the process touches them.

What holds of the memory of a process between these calls is `Image`: it is well formed, its
size is at most `TRAPFRAME`, and nothing from `PGROUNDUP(sz)` up to `TRAPFRAME` is translated.
Every call keeps it, never panics, and leaves the trapframe and trampoline pages alone
(`memRun_keeps_image`). A process that grows eagerly only also has every page below `PGROUNDUP(sz)`
translated, user and writable (`Dense`): the memory is then exactly what the size says, which is
the abstraction `Xv6.Umalloc` takes for the user heap, and `sys_sbrk(n, SBRK_EAGER)` computes the
size `Xv6.Umalloc.sbrk` does, with `uvmalloc`'s success as its `grant` (`sysSbrk_eager_refines`).
-/

namespace Xv6.Vm

open Xv6.Lib

/-! ## The functions -/

/-- `SBRK_EAGER` of `kernel/vm.h`. -/
def SBRK_EAGER : Int32 := 1

/-- `SBRK_LAZY` of `kernel/vm.h`. -/
def SBRK_LAZY : Int32 := 2

/-- `growproc(n)` of process `p`: `0`, or `-1` when the size would pass `TRAPFRAME` or `uvmalloc`
fails. `sz + n` is the `uint64` sum, `n` converted from `int`. -/
def growproc (m : Machine) (p : Proc) (n : Int32) : Except String (Int × Proc × Machine) :=
  let sz := p.sz
  if 0 < n then
    if (sz + n.toInt.toNat) % 2 ^ 64 > TRAPFRAME then pure (-1, p, m)
    else do
      let (sz, m) ← uvmalloc m p.pagetable p.sz ((p.sz + n.toInt.toNat) % 2 ^ 64) PTE_W
      if sz = 0 then pure (-1, p, m) else pure (0, { p with sz := sz }, m)
  else if n < 0 then do
    let (sz, m) ← uvmdealloc m p.pagetable sz ((sz + n.toInt) % 2 ^ 64).toNat
    pure (0, { p with sz := sz }, m)
  else pure (0, p, m)

/-- `sys_sbrk(n, t)` of process `p`: the old size, or `-1` as a `uint64`. A negative `n` always
goes through `growproc`. -/
def sysSbrk (m : Machine) (p : Proc) (n t : Int32) : Except String (Nat × Proc × Machine) :=
  let addr := p.sz
  if t = SBRK_EAGER ∨ n < 0 then do
    let (r, p, m) ← growproc m p n
    if r < 0 then pure (2 ^ 64 - 1, p, m) else pure (addr, p, m)
  -- lazily: raise the size and let `vmfault` map the pages
  else if (addr + n.toInt.toNat) % 2 ^ 64 < addr then pure (2 ^ 64 - 1, p, m)
  else if (addr + n.toInt.toNat) % 2 ^ 64 > TRAPFRAME then pure (2 ^ 64 - 1, p, m)
  else pure (addr, { p with sz := (p.sz + n.toInt.toNat) % 2 ^ 64 }, m)

/-- What a process does to its memory: `sys_sbrk(n, t)`, or a page fault at `va`, which
`usertrap` hands to `vmfault` on the process's own table. -/
inductive MemOp where
  | sbrk (n t : Int32)
  | fault (va : Nat)

/-- A call that keeps every page below the size mapped: `sbrk` through `growproc`, or a page
fault. -/
def MemOp.Eager : MemOp → Prop
  | .sbrk n t => t = SBRK_EAGER ∨ n < 0
  | .fault _ => True

/-- One call on the memory of process `p`. -/
def memStep (m : Machine) (p : Proc) : MemOp → Except String (Proc × Machine)
  | .sbrk n t => do
    let (_, p, m) ← sysSbrk m p n t
    pure (p, m)
  | .fault va => do
    let (_, m) ← vmfault p m p.pagetable va
    pure (p, m)

/-- The calls of `ops`, one after the other. -/
def memRun (m : Machine) (p : Proc) : List MemOp → Except String (Proc × Machine)
  | [] => pure (p, m)
  | op :: ops => do
    let (p, m) ← memStep m p op
    memRun m p ops

/-! ## Arithmetic of sizes -/

/-- The range of an `int` argument. -/
theorem int_bounds (n : Int32) : -2 ^ 31 ≤ n.toInt ∧ n.toInt < 2 ^ 31 := by
  have h₁ := n.minValue_le_toInt
  rw [Int32.toInt_minValue] at h₁
  exact ⟨h₁, n.toInt_lt⟩

theorem PGROUNDUP_mono {a b : Nat} (h : a ≤ b) : PGROUNDUP a ≤ PGROUNDUP b := by
  unfold PGROUNDUP PGSIZE
  omega

/-- `TRAPFRAME` is a page boundary: rounding up below it stays below it. -/
theorem PGROUNDUP_le_TRAPFRAME {a : Nat} (h : a ≤ TRAPFRAME) : PGROUNDUP a ≤ TRAPFRAME := by
  unfold PGROUNDUP
  unfold TRAPFRAME TRAMPOLINE MAXVA PGSIZE at *
  omega

theorem PGROUNDUP_le_TRAMPOLINE {a : Nat} (h : a ≤ TRAMPOLINE) : PGROUNDUP a ≤ TRAMPOLINE := by
  unfold PGROUNDUP
  unfold TRAMPOLINE MAXVA PGSIZE at *
  omega

theorem TRAPFRAME_le_TRAMPOLINE : TRAPFRAME ≤ TRAMPOLINE := by
  unfold TRAPFRAME
  omega

/-! ## `uvmdealloc` and `vmfault` at any size and address -/

section Calls

variable {m : Machine} {p : Proc}

/-- `uvmdealloc(pagetable, oldsz, newsz)` for `oldsz ≤ TRAMPOLINE`: it returns `oldsz` when
`newsz` is not below it and `newsz` otherwise; the pages of `[PGROUNDUP(newsz), PGROUNDUP(oldsz))`
lose their translations and every other translation stays. -/
theorem uvmdealloc_run {pt oldsz newsz : Nat} (hW : Wf m pt) (hold : oldsz ≤ TRAMPOLINE) :
    ∃ m', uvmdealloc m pt oldsz newsz = .ok (if newsz ≥ oldsz then oldsz else newsz, m') ∧
      Wf m' pt ∧ (∀ b, PGROUNDUP newsz ≤ b → b < PGROUNDUP oldsz → m'.leaf pt b = none) ∧
      ∀ b, b < MAXVA → (b < PGROUNDUP newsz ∨ PGROUNDUP oldsz ≤ b) → m'.leaf pt b = m.leaf pt b := by
  by_cases hge : newsz ≥ oldsz
  · -- nothing to free
    have hup := PGROUNDUP_mono hge
    refine ⟨m, ?_, hW, fun b h1 h2 => absurd h2 (by omega), fun _ _ _ => rfl⟩
    rw [uvmdealloc, if_pos hge, if_pos hge]
    rfl
  · by_cases hup : PGROUNDUP newsz < PGROUNDUP oldsz
    · -- `uvmunmap` of the pages from `PGROUNDUP(newsz)` up to `PGROUNDUP(oldsz)`
      have hal := PGROUNDUP_aligned newsz
      have hal' := PGROUNDUP_aligned oldsz
      have hnp : PGROUNDUP newsz + (PGROUNDUP oldsz - PGROUNDUP newsz) / PGSIZE * PGSIZE =
          PGROUNDUP oldsz := by
        unfold PGSIZE at hal hal' ⊢
        omega
      obtain ⟨m', hrun, hW', hnone', hsame', -⟩ :=
        uvmunmapLoop_free ((PGROUNDUP oldsz - PGROUNDUP newsz) / PGSIZE) (PGROUNDUP newsz) m hW hal
          (by rw [hnp]; exact PGROUNDUP_le_TRAMPOLINE hold)
      rw [hnp] at hnone' hsame'
      refine ⟨m', ?_, hW', hnone', hsame'⟩
      rw [uvmdealloc, if_neg hge, if_neg hge, if_pos hup]
      show (do
        let m ← uvmunmap m pt (PGROUNDUP newsz) ((PGROUNDUP oldsz - PGROUNDUP newsz) / PGSIZE) true
        pure (newsz, m)) = _
      rw [uvmunmap, if_neg (not_not.mpr hal), hrun]
      rfl
    · -- the same last page: nothing to free
      refine ⟨m, ?_, hW, fun b h1 h2 => absurd h2 (by omega), fun _ _ _ => rfl⟩
      rw [uvmdealloc, if_neg hge, if_neg hge, if_neg hup]
      rfl

/-- `vmfault` below the size works on the page of `va`. -/
theorem vmfault_down {pt va : Nat} (h : va < p.sz) :
    vmfault p m pt va = vmfault p m pt (PGROUNDDOWN va) := by
  have hle := PGROUNDDOWN_le va
  have hidem : PGROUNDDOWN (PGROUNDDOWN va) = PGROUNDDOWN va := by
    unfold PGROUNDDOWN PGSIZE
    omega
  rw [vmfault, vmfault, if_neg (by omega), if_neg (by omega), hidem]

end Calls

/-! ## The memory of a process between calls -/

/-- The memory of process `p` between calls: well formed, a size at most `TRAPFRAME`, and no
translation from `PGROUNDUP(sz)` up to `TRAPFRAME`. -/
structure Image (m : Machine) (p : Proc) : Prop where
  wf : Wf m p.pagetable
  sz_le : p.sz ≤ TRAPFRAME
  above : ∀ va, PGROUNDUP p.sz ≤ va → va < TRAPFRAME → m.leaf p.pagetable va = none

/-- `m'` translates what `m` does from `TRAPFRAME` on: the trapframe and the trampoline. -/
def TopKept (m m' : Machine) (pt : Nat) : Prop :=
  ∀ va, TRAPFRAME ≤ va → va < MAXVA → m'.leaf pt va = m.leaf pt va

theorem TopKept.trans {m m₁ m₂ : Machine} {pt : Nat} (h₁ : TopKept m m₁ pt) (h₂ : TopKept m₁ m₂ pt) :
    TopKept m m₂ pt :=
  fun va h1 h2 => (h₂ va h1 h2).trans (h₁ va h1 h2)

/-- Every page below `PGROUNDUP(sz)` is translated, user and writable: the memory that eager
`sbrk` keeps, and that `Xv6.Umalloc` takes as the mapped memory of the heap. -/
def Dense (m : Machine) (p : Proc) : Prop :=
  ∀ va, va < PGROUNDUP p.sz →
    ∃ v, m.leaf p.pagetable va = some v ∧ v &&& PTE_U ≠ 0 ∧ v &&& PTE_W ≠ 0

section Grow

variable {m : Machine} {p : Proc}

/-- A dense image stays dense when the pages below the old rounded size keep their translations
and the new pages up to the new size are mapped user and writable. -/
theorem Dense.of_grown (hd : Dense m p) {m' : Machine} {sz' : Nat}
    (hsame : ∀ va, va < PGROUNDUP p.sz → m'.leaf p.pagetable va = m.leaf p.pagetable va)
    (hnew : ∀ va, PGROUNDUP p.sz ≤ va → va < sz' →
      ∃ v, m'.leaf p.pagetable va = some v ∧ v &&& PTE_U ≠ 0 ∧ v &&& PTE_W ≠ 0) :
    Dense m' { p with sz := sz' } := by
  intro va hva
  dsimp only at hva ⊢
  by_cases hlo : va < PGROUNDUP p.sz
  · rw [hsame va hlo]
    exact hd va hlo
  · by_cases hhi : va < sz'
    · exact hnew va (by omega) hhi
    · -- past `sz'` on its last page, which a new page of the range shares
      obtain ⟨hpos, hpg⟩ := page_of_last (by omega) hva
      have hal := PGROUNDUP_aligned p.sz
      have hlast : PGROUNDUP p.sz ≤ sz' - 1 := by
        unfold PGSIZE at hpg hal
        omega
      rw [Machine.leaf_of_page hpg]
      exact hnew (sz' - 1) hlast (by omega)

/-- `growproc(n)` for `n > 0`. Past `TRAPFRAME` it returns `-1` and changes nothing; otherwise it
maps the new pages with `uvmalloc`, or returns `-1` with every translation kept, which happens only
short of three free pages for each new page. The size it leaves is the one `Umalloc.growproc`
computes, with `uvmalloc`'s success as the grant. -/
theorem Image.growproc_pos (h : Image m p) {n : Int32} (hn : 0 < n) :
    ∃ r p' m', growproc m p n = .ok (r, p', m') ∧ Image m' p' ∧ p'.pagetable = p.pagetable ∧
      TopKept m m' p.pagetable ∧ (Dense m p → Dense m' p') ∧ (r = 0 ∨ r = -1 ∧ p' = p) ∧
      ∃ grant, Xv6.Umalloc.growproc grant p.sz n = (if r = 0 then some p'.sz else none) ∧
        (grant = false → m.free.length <
          3 * ((PGROUNDUP (p.sz + n.toInt.toNat) - PGROUNDUP p.sz) / PGSIZE)) := by
  have hpos : 0 < n.toInt := Int32.lt_iff_toInt_lt.mp hn
  have hk := int_bounds n
  have hsz := h.sz_le
  have hTT := TRAPFRAME_le_TRAMPOLINE
  have hTM := TRAPFRAME_le_MAXVA
  -- the `uint64` sum does not wrap
  have hwrap : (p.sz + n.toInt.toNat) % 2 ^ 64 = p.sz + n.toInt.toNat := by
    apply Nat.mod_eq_of_lt
    unfold TRAPFRAME TRAMPOLINE MAXVA PGSIZE at hsz
    omega
  by_cases htop : TRAPFRAME < p.sz + n.toInt.toNat
  · -- past `TRAPFRAME`: `-1`
    refine ⟨-1, p, m, ?_, h, rfl, fun _ _ _ => rfl, id, .inr ⟨rfl, rfl⟩, true, ?_,
      fun hf => absurd hf (by decide)⟩
    · rw [growproc]
      dsimp only
      rw [if_pos hn, hwrap, if_pos htop]
      rfl
    · simp only [Xv6.Umalloc.growproc, hn, htop, if_true]
      rfl
  · have hnone : ∀ b, PGROUNDUP p.sz ≤ b → b < p.sz + n.toInt.toNat →
        m.leaf p.pagetable b = none := fun b h1 h2 => h.above b h1 (by omega)
    obtain ⟨r₀, m₁, halloc, hW₁, hres⟩ := uvmalloc_run h.wf
      (show PTE_R ||| PTE_U ||| PTE_W < 2 ^ 10 by decide)
      (Nat.le_add_right p.sz n.toInt.toNat) (by omega) hnone
    have hrun : growproc m p n = (if r₀ = 0 then pure (-1, p, m₁)
        else pure (0, { p with sz := r₀ }, m₁)) := by
      rw [growproc]
      dsimp only
      rw [if_pos hn, hwrap, if_neg htop, halloc, ok_bind]
    have hup := PGROUNDUP_le_TRAPFRAME (show p.sz + n.toInt.toNat ≤ TRAPFRAME by omega)
    have hmono := PGROUNDUP_mono (Nat.le_add_right p.sz n.toInt.toNat)
    rcases hres with ⟨rfl, hmapped, hsame, -⟩ | ⟨rfl, hshort, hsame, -, -⟩
    · -- mapped: the new size
      have hne : p.sz + n.toInt.toNat ≠ 0 := by omega
      refine ⟨0, { p with sz := p.sz + n.toInt.toNat }, m₁, ?_, ⟨hW₁, by dsimp only; omega, ?_⟩,
        rfl, fun va h1 h2 => hsame va h2 (.inr (by omega)), fun hd => ?_, .inl rfl,
        true, ?_, fun hf => absurd hf (by decide)⟩
      · rw [hrun, if_neg hne]
        rfl
      · intro va h1 h2
        dsimp only at h1
        rw [hsame va (by omega) (.inr h1)]
        exact h.above va (by omega) h2
      · -- the new pages are mapped with `PTE_R | PTE_U | PTE_W`
        apply hd.of_grown (fun va hva => hsame va (by omega) (.inl hva))
        intro va h1 h2
        obtain ⟨q, -, hl, -⟩ := hmapped va h1 h2
        exact ⟨_, hl, leafPte_and_flag (k := 4) (by decide), leafPte_and_flag (k := 2) (by decide)⟩
      · simp only [Xv6.Umalloc.growproc, hn, htop, if_true, if_false]
    · -- `uvmalloc` failed: `-1`, every translation as it was
      refine ⟨-1, p, m₁, ?_, ⟨hW₁, hsz, fun va h1 h2 => (hsame va (by omega)).trans
        (h.above va h1 h2)⟩, rfl, fun va _ h2 => hsame va h2, fun hd va hva => ?_,
        .inr ⟨rfl, rfl⟩, false, ?_, fun _ => hshort⟩
      · rw [hrun, if_pos rfl]
        rfl
      · have hlt : va < MAXVA := by
          have := PGROUNDUP_le_TRAPFRAME hsz
          omega
        rw [hsame va hlt]
        exact hd va hva
      · simp only [Xv6.Umalloc.growproc, hn, htop, if_true, if_false, Bool.false_eq_true]
        rw [if_neg (by decide)]

/-- `growproc(n)` for `n < 0`: `uvmdealloc` down to the `uint64` sum `sz + n`, which lowers the
size by `-n` when the size is at least that and otherwise wraps above it and keeps the size; the
pages past the new size lose their translations. -/
theorem Image.growproc_neg (h : Image m p) {n : Int32} (hn : n < 0) :
    ∃ p' m', growproc m p n = .ok (0, p', m') ∧ Image m' p' ∧ p'.pagetable = p.pagetable ∧
      TopKept m m' p.pagetable ∧ (Dense m p → Dense m' p') ∧
      ∀ grant, Xv6.Umalloc.growproc grant p.sz n = some p'.sz := by
  have hneg : n.toInt < 0 := Int32.lt_iff_toInt_lt.mp hn
  have hnpos : ¬ 0 < n := fun hp => absurd (Int32.lt_iff_toInt_lt.mp hp) (by
    rw [Int32.toInt_zero]
    omega)
  have hsz := h.sz_le
  have hTT := TRAPFRAME_le_TRAMPOLINE
  have hTM := TRAPFRAME_le_MAXVA
  obtain ⟨m₁, hd, hW₁, hnone, hsame⟩ :=
    @uvmdealloc_run m p.pagetable p.sz ((p.sz + n.toInt) % 2 ^ 64).toNat h.wf (by omega)
  have hup := PGROUNDUP_le_TRAPFRAME hsz
  refine ⟨{ p with sz := if ((p.sz + n.toInt) % 2 ^ 64).toNat ≥ p.sz then p.sz
      else ((p.sz + n.toInt) % 2 ^ 64).toNat }, m₁, ?_, ⟨hW₁, ?_, ?_⟩, rfl,
    fun va h1 h2 => hsame va h2 (.inr (by omega)), fun hden va hva => ?_, fun grant => ?_⟩
  · rw [growproc]
    dsimp only
    rw [if_neg hnpos, if_pos hn, hd, ok_bind]
    rfl
  · dsimp only
    split_ifs <;> omega
  · -- below the old rounded size the pages were unmapped, above it there were none
    intro va h1 h2
    dsimp only at h1 ⊢
    by_cases hva : va < PGROUNDUP p.sz
    · split_ifs at h1 with hge
      · omega
      · exact hnone va h1 hva
    · rw [hsame va (by omega) (.inr (by omega))]
      exact h.above va (by omega) h2
  · -- a page below the new rounded size kept its translation
    dsimp only at hva ⊢
    have hlo : va < PGROUNDUP p.sz ∧ va < PGROUNDUP ((p.sz + n.toInt) % 2 ^ 64).toNat := by
      split_ifs at hva with hge
      · exact ⟨hva, by have := PGROUNDUP_mono hge; omega⟩
      · exact ⟨by have := PGROUNDUP_mono (show ((p.sz + n.toInt) % 2 ^ 64).toNat ≤ p.sz by
          omega); omega, hva⟩
    rw [hsame va (by omega) (.inl hlo.2)]
    exact hden va hlo.1
  · simp only [Xv6.Umalloc.growproc, hnpos, hn, if_false, if_true]

/-- `growproc(n)` on a process image: it keeps the image, a dense one dense, and the trapframe
and trampoline pages; it returns `0`, or `-1` with the process unchanged, and leaves the size that
`Umalloc.growproc` computes for a grant withheld only short of three free pages for each new
page. -/
theorem Image.growproc (h : Image m p) (n : Int32) :
    ∃ r p' m', growproc m p n = .ok (r, p', m') ∧ Image m' p' ∧ p'.pagetable = p.pagetable ∧
      TopKept m m' p.pagetable ∧ (Dense m p → Dense m' p') ∧ (r = 0 ∨ r = -1 ∧ p' = p) ∧
      ∃ grant, Xv6.Umalloc.growproc grant p.sz n = (if r = 0 then some p'.sz else none) ∧
        (grant = false → m.free.length <
          3 * ((PGROUNDUP (p.sz + n.toInt.toNat) - PGROUNDUP p.sz) / PGSIZE)) := by
  by_cases hn : 0 < n
  · exact h.growproc_pos hn
  · by_cases hn' : n < 0
    · obtain ⟨p', m', hrun, himg, hpt, htop, hden, hsize⟩ := h.growproc_neg hn'
      exact ⟨0, p', m', hrun, himg, hpt, htop, hden, .inl rfl, true,
        by rw [hsize true, if_pos rfl], fun hf => absurd hf (by decide)⟩
    · -- `n = 0`: nothing to do
      have hz : n = 0 := by
        have h₁ := Int32.lt_iff_toInt_lt.not.mp hn
        have h₂ := Int32.lt_iff_toInt_lt.not.mp hn'
        rw [Int32.toInt_zero] at h₁ h₂
        exact Int32.toInt_inj.mp (by rw [Int32.toInt_zero]; omega)
      subst hz
      refine ⟨0, p, m, ?_, h, rfl, fun _ _ _ => rfl, id, .inl rfl, true, ?_,
        fun hf => absurd hf (by decide)⟩
      · -- `Vm.growproc`: inside `Image.growproc` a bare `growproc` names the theorem
        rw [Vm.growproc]
        dsimp only
        rw [if_neg hn, if_neg hn']
        rfl
      · simp only [Xv6.Umalloc.growproc, hn, if_false, if_true]

end Grow

/-! ## Every call keeps the image -/

section Step

variable {m : Machine} {p : Proc}

/-- `sys_sbrk(n, t)` on a process image: eagerly through `growproc`, or lazily by raising the
size alone when the sum neither wraps nor passes `TRAPFRAME`. It keeps the image and the
trapframe and trampoline pages. -/
theorem Image.sysSbrk (h : Image m p) (n t : Int32) :
    ∃ a p' m', sysSbrk m p n t = .ok (a, p', m') ∧ Image m' p' ∧ p'.pagetable = p.pagetable ∧
      TopKept m m' p.pagetable ∧ ((t = SBRK_EAGER ∨ n < 0) → Dense m p → Dense m' p') := by
  by_cases ht : t = SBRK_EAGER ∨ n < 0
  · obtain ⟨r, p', m', hg, himg, hpt, htop, hden, -⟩ := h.growproc n
    have hrun : Vm.sysSbrk m p n t =
        (if r < 0 then pure (2 ^ 64 - 1, p', m') else pure (p.sz, p', m')) := by
      rw [Vm.sysSbrk]
      dsimp only
      rw [if_pos ht, hg, ok_bind]
    by_cases hr : r < 0
    · exact ⟨_, p', m', by rw [hrun, if_pos hr]; rfl, himg, hpt, htop, fun _ => hden⟩
    · exact ⟨_, p', m', by rw [hrun, if_neg hr]; rfl, himg, hpt, htop, fun _ => hden⟩
  · -- lazily: the size alone
    have hsz := h.sz_le
    by_cases hbad : (p.sz + n.toInt.toNat) % 2 ^ 64 < p.sz ∨ (p.sz + n.toInt.toNat) % 2 ^ 64 > TRAPFRAME
    · refine ⟨2 ^ 64 - 1, p, m, ?_, h, rfl, fun _ _ _ => rfl, fun _ => id⟩
      rw [Vm.sysSbrk]
      dsimp only
      rw [if_neg ht]
      rcases hbad with hbad | hbad
      · rw [if_pos hbad]
        rfl
      · rw [if_neg (by omega), if_pos hbad]
        rfl
    · refine ⟨p.sz, { p with sz := (p.sz + n.toInt.toNat) % 2 ^ 64 }, m, ?_,
        ⟨h.wf, by dsimp only; omega, fun va h1 h2 => ?_⟩, rfl, fun _ _ _ => rfl,
        fun he => absurd he ht⟩
      · rw [Vm.sysSbrk]
        dsimp only
        rw [if_neg ht, if_neg (by omega), if_neg (by omega)]
        rfl
      · -- the size went up: what lies above the new size lay above the old one
        dsimp only at h1
        have hmono := PGROUNDUP_mono (show p.sz ≤ (p.sz + n.toInt.toNat) % 2 ^ 64 by omega)
        exact h.above va (by omega) h2

/-- A page fault on a process image: `vmfault` maps the page of `va` when it lies below the size
untranslated, and keeps the image and the trapframe and trampoline pages. -/
theorem Image.fault (h : Image m p) (va : Nat) :
    ∃ pa m', vmfault p m p.pagetable va = .ok (pa, m') ∧ Image m' p ∧ TopKept m m' p.pagetable ∧
      (Dense m p → Dense m' p) := by
  have hsz := h.sz_le
  have hTM := TRAPFRAME_le_MAXVA
  by_cases hva : va < p.sz
  · rw [vmfault_down hva]
    have hal := PGROUNDDOWN_aligned va
    have hle := PGROUNDDOWN_le va
    have hup := le_PGROUNDUP p.sz
    -- a page at or above `PGROUNDUP(sz)` is not the page of `va`
    have hoff : ∀ a, PGROUNDUP p.sz ≤ a → a / PGSIZE ≠ PGROUNDDOWN va / PGSIZE := by
      intro a ha hpg
      have hpg' := PGROUNDDOWN_page va
      have hal' := PGROUNDUP_aligned p.sz
      unfold PGSIZE at hpg hpg' hal hal'
      omega
    cases hl : m.leaf p.pagetable (PGROUNDDOWN va) with
    | none =>
      obtain ⟨pa, m', hrun, hW', -, -, hzero, hpos⟩ :=
        vmfault_lazy h.wf (by omega) hal (by omega) hl
      -- only the page of `va` may have changed
      have hsame : ∀ a, a < MAXVA → PGROUNDUP p.sz ≤ a →
          m'.leaf p.pagetable a = m.leaf p.pagetable a := by
        intro a ha h1
        by_cases hpa : pa = 0
        · exact (hzero hpa).2 a ha
        · obtain ⟨v, -, -, -, -, hother⟩ := hpos hpa
          exact hother a ha (hoff a h1)
      refine ⟨pa, m', hrun, ⟨hW', hsz, fun a h1 h2 => ?_⟩, fun a h1 h2 => hsame a h2 (by
        have := PGROUNDUP_le_TRAPFRAME hsz
        omega), fun hd => ?_⟩
      · rw [hsame a (by omega) h1]
        exact h.above a h1 h2
      · -- a dense image has the page of `va` mapped
        obtain ⟨v, hv, -⟩ := hd (PGROUNDDOWN va) (by omega)
        rw [hl] at hv
        cases hv
    | some v =>
      -- already mapped: nothing to do
      have hlt : PGROUNDDOWN va < MAXVA := by omega
      refine ⟨0, m, vmfault_not_lazy hlt hal ?_, h, fun _ _ _ => rfl, id⟩
      rintro ⟨hn, -⟩
      rw [hl] at hn
      cases hn
  · -- at or above the size: nothing to do
    refine ⟨0, m, ?_, h, fun _ _ _ => rfl, id⟩
    rw [vmfault, if_pos (by omega)]
    rfl

/-- Every call keeps the process image, the trapframe and trampoline pages and, when eager, a
dense image dense; none panics. -/
theorem Image.step (h : Image m p) (op : MemOp) :
    ∃ p' m', memStep m p op = .ok (p', m') ∧ Image m' p' ∧ p'.pagetable = p.pagetable ∧
      TopKept m m' p.pagetable ∧ (op.Eager → Dense m p → Dense m' p') := by
  cases op with
  | sbrk n t =>
    obtain ⟨a, p', m', hrun, himg, hpt, htop, hden⟩ := h.sysSbrk n t
    exact ⟨p', m', by rw [memStep, hrun, ok_bind]; rfl, himg, hpt, htop, hden⟩
  | fault va =>
    obtain ⟨pa, m', hrun, himg, htop, hden⟩ := h.fault va
    exact ⟨p, m', by rw [memStep, hrun, ok_bind]; rfl, himg, rfl, htop, fun _ => hden⟩

/-- A run of calls from a process image, step by step: it never panics, keeps the image and the
trapframe and trampoline pages, and keeps a dense image dense when every call is eager. -/
theorem Image.run_spec (ops : List MemOp) :
    ∀ (m : Machine) (p : Proc), Image m p →
      ∃ p' m', memRun m p ops = .ok (p', m') ∧ Image m' p' ∧ p'.pagetable = p.pagetable ∧
        TopKept m m' p.pagetable ∧ ((∀ op ∈ ops, op.Eager) → Dense m p → Dense m' p') := by
  -- induction on the calls, one step a call
  induction ops with
  | nil =>
    intro m p h
    exact ⟨p, m, rfl, h, rfl, fun _ _ _ => rfl, fun _ => id⟩
  | cons op ops ih =>
    intro m p h
    obtain ⟨p₁, m₁, hstep, h₁, hpt₁, htop₁, hden₁⟩ := h.step op
    obtain ⟨p', m', hrun, h', hpt', htop', hden'⟩ := ih m₁ p₁ h₁
    refine ⟨p', m', ?_, h', hpt'.trans hpt₁, htop₁.trans (hpt₁ ▸ htop'), fun he hd => ?_⟩
    · rw [memRun, hstep, ok_bind]
      exact hrun
    · exact hden' (fun op' hop' => he op' (List.mem_cons_of_mem op hop'))
        (hden₁ (he op List.mem_cons_self) hd)

end Step

/-! ## Runs, and the size-only model of `Xv6.Umalloc` -/

section Runs

/-- The fresh machine of `Xv6.Vm.Copy` as a process with an empty table and size `0`. -/
theorem roomyMachine_image : Image roomyMachine ⟨0x87000000, 0⟩ :=
  ⟨roomyMachine_wf, by decide, fun va _ _ => Machine.leaf_of_root_empty freshMachine_root_empty va⟩

/-- Any sequence of `sbrk` calls, eager, lazy or negative with any argument, and page faults,
from a process image: it never panics, keeps the memory well formed, the size at most
`TRAPFRAME` and nothing translated from `PGROUNDUP(sz)` up to `TRAPFRAME`, and keeps the
trapframe and trampoline pages. -/
theorem memRun_keeps_image (ops : List MemOp) (m : Machine) (p : Proc) (h : Image m p) :
    ∃ p' m', memRun m p ops = .ok (p', m') ∧ Wf m' p.pagetable ∧ p'.pagetable = p.pagetable ∧
      p'.sz ≤ TRAPFRAME ∧
      (∀ va, PGROUNDUP p'.sz ≤ va → va < TRAPFRAME → m'.leaf p.pagetable va = none) ∧
      ∀ va, TRAPFRAME ≤ va → va < MAXVA → m'.leaf p.pagetable va = m.leaf p.pagetable va := by
  obtain ⟨p', m', hrun, h', hpt, htop, -⟩ := Image.run_spec ops m p h
  refine ⟨p', m', hrun, hpt ▸ h'.wf, hpt, h'.sz_le, fun va h1 h2 => ?_, htop⟩
  rw [← hpt]
  exact h'.above va h1 h2

theorem memRun_keeps_image_roomyMachine :
    Image roomyMachine ⟨0x87000000, 0⟩ ∧
      ∃ p' m', memRun roomyMachine ⟨0x87000000, 0⟩
          [.sbrk 8192 SBRK_LAZY, .fault 4100, .sbrk (-4096) SBRK_LAZY] = .ok (p', m') ∧
        Wf m' 0x87000000 ∧ p'.pagetable = 0x87000000 ∧ p'.sz ≤ TRAPFRAME ∧
        (∀ va, PGROUNDUP p'.sz ≤ va → va < TRAPFRAME → m'.leaf 0x87000000 va = none) ∧
        ∀ va, TRAPFRAME ≤ va → va < MAXVA →
          m'.leaf 0x87000000 va = roomyMachine.leaf 0x87000000 va :=
  ⟨roomyMachine_image, memRun_keeps_image _ _ _ roomyMachine_image⟩

/-- A process that grows eagerly only: from a dense image, after any sequence of `sbrk` calls
through `growproc` and page faults, a page below `TRAPFRAME` is translated, user and writable,
exactly when it lies below `PGROUNDUP(sz)`, the memory `Xv6.Umalloc` takes as mapped. -/
theorem Dense.run_eager (ops : List MemOp) (he : ∀ op ∈ ops, op.Eager) (m : Machine) (p : Proc)
    (h : Image m p) (hd : Dense m p) :
    ∃ p' m', memRun m p ops = .ok (p', m') ∧ Wf m' p.pagetable ∧ p'.pagetable = p.pagetable ∧
      ∀ va, va < TRAPFRAME →
        ((∃ v, m'.leaf p.pagetable va = some v ∧ v &&& PTE_U ≠ 0 ∧ v &&& PTE_W ≠ 0) ↔
          va < PGROUNDUP p'.sz) := by
  obtain ⟨p', m', hrun, h', hpt, -, hden⟩ := Image.run_spec ops m p h
  have hd' := hden he hd
  refine ⟨p', m', hrun, hpt ▸ h'.wf, hpt, fun va hva => ⟨fun hex => ?_, fun hlt => ?_⟩⟩
  · -- above the rounded size nothing is translated
    obtain ⟨v, hv, -⟩ := hex
    by_contra hge
    rw [← hpt, h'.above va (by omega) hva] at hv
    cases hv
  · rw [← hpt]
    exact hd' va hlt

theorem ampleMachine_image : Image ampleMachine ⟨0x87000000, 0⟩ :=
  ⟨ampleMachine_wf, by decide, fun va _ _ => Machine.leaf_of_root_empty freshMachine_root_empty va⟩

theorem ampleMachine_dense : Dense ampleMachine ⟨0x87000000, 0⟩ := fun va hva => by
  have h0 : PGROUNDUP 0 = 0 := rfl
  dsimp only at hva
  omega

/-- Eager `sbrk(8192)` maps two pages, a fault on the second finds it mapped, and `sbrk(-4096)`
unmaps it: the one page left is the one below the size. -/
theorem Dense.run_eager_ampleMachine :
    (∀ op ∈ [MemOp.sbrk 8192 SBRK_EAGER, .fault 4100, .sbrk (-4096) SBRK_EAGER], op.Eager) ∧
      Image ampleMachine ⟨0x87000000, 0⟩ ∧ Dense ampleMachine ⟨0x87000000, 0⟩ ∧
      ∃ p' m', memRun ampleMachine ⟨0x87000000, 0⟩
          [.sbrk 8192 SBRK_EAGER, .fault 4100, .sbrk (-4096) SBRK_EAGER] = .ok (p', m') ∧
        p'.sz = 4096 ∧ Wf m' 0x87000000 ∧ p'.pagetable = 0x87000000 ∧
        ∀ va, va < TRAPFRAME →
          ((∃ v, m'.leaf 0x87000000 va = some v ∧ v &&& PTE_U ≠ 0 ∧ v &&& PTE_W ≠ 0) ↔
            va < PGROUNDUP p'.sz) := by
  have he : ∀ op ∈ [MemOp.sbrk 8192 SBRK_EAGER, .fault 4100, .sbrk (-4096) SBRK_EAGER], op.Eager := by
    intro op hop
    simp only [List.mem_cons, List.not_mem_nil, or_false] at hop
    rcases hop with rfl | rfl | rfl
    · exact .inl rfl
    · trivial
    · exact .inl rfl
  obtain ⟨p', m', hrun, hW, hpt, hiff⟩ :=
    Dense.run_eager _ he _ _ ampleMachine_image ampleMachine_dense
  -- the run itself: both pages are granted, one is given back
  have hsz : (memRun ampleMachine ⟨0x87000000, 0⟩
      [.sbrk 8192 SBRK_EAGER, .fault 4100, .sbrk (-4096) SBRK_EAGER]).map (fun r => r.1.sz) =
        .ok 4096 := by
    decide +kernel
  rw [hrun] at hsz
  exact ⟨he, ampleMachine_image, ampleMachine_dense, p', m', hrun, Except.ok.inj hsz, hW, hpt, hiff⟩

/-- `sbrk(n)` of `user/ulib.c`, that is `sys_sbrk(n, SBRK_EAGER)`, on a process image: it returns
the old size and leaves the new size that `Xv6.Umalloc.sbrk` computes, or returns `-1` exactly
where that model fails, for a grant the kernel withholds only short of three free pages for each
new page; and it keeps the image, a dense one dense. -/
theorem sysSbrk_eager_refines {m : Machine} {p : Proc} (h : Image m p) (n : Int32) :
    ∃ a p' m' grant, sysSbrk m p n SBRK_EAGER = .ok (a, p', m') ∧ Image m' p' ∧
      (Dense m p → Dense m' p') ∧
      Xv6.Umalloc.sbrk grant p.sz n = (if a = 2 ^ 64 - 1 then none else some (a, p'.sz)) ∧
      (grant = false → m.free.length <
        3 * ((PGROUNDUP (p.sz + n.toInt.toNat) - PGROUNDUP p.sz) / PGSIZE)) := by
  obtain ⟨r, p', m', hg, himg, -, -, hden, hr, grant, hsize, hshort⟩ := h.growproc n
  have hrun : sysSbrk m p n SBRK_EAGER =
      (if r < 0 then pure (2 ^ 64 - 1, p', m') else pure (p.sz, p', m')) := by
    rw [sysSbrk]
    dsimp only
    rw [if_pos (.inl rfl), hg, ok_bind]
  have hsz : p.sz ≠ 2 ^ 64 - 1 := by
    have := h.sz_le
    unfold TRAPFRAME TRAMPOLINE MAXVA PGSIZE at this
    omega
  rcases hr with rfl | ⟨rfl, hp⟩
  · -- `growproc` succeeded: the old size, and the size the model computes
    refine ⟨p.sz, p', m', grant, ?_, himg, hden, ?_, hshort⟩
    · rw [hrun, if_neg (by decide)]
      rfl
    · rw [Xv6.Umalloc.sbrk, hsize, if_pos rfl, if_neg hsz]
      rfl
  · -- `growproc` failed: `-1`, where the model fails too
    refine ⟨2 ^ 64 - 1, p', m', grant, ?_, himg, hden, ?_, hshort⟩
    · rw [hrun, if_pos (by decide)]
      rfl
    · rw [Xv6.Umalloc.sbrk, hsize, if_neg (by decide), if_pos rfl]
      rfl

theorem sysSbrk_eager_refines_roomyMachine :
    Image roomyMachine ⟨0x87000000, 0⟩ ∧
      ∃ a p' m' grant, sysSbrk roomyMachine ⟨0x87000000, 0⟩ 8192 SBRK_EAGER = .ok (a, p', m') ∧
        Image m' p' ∧ (Dense roomyMachine ⟨0x87000000, 0⟩ → Dense m' p') ∧
        Xv6.Umalloc.sbrk grant 0 8192 = (if a = 2 ^ 64 - 1 then none else some (a, p'.sz)) ∧
        (grant = false → roomyMachine.free.length <
          3 * ((PGROUNDUP (0 + (8192 : Int32).toInt.toNat) - PGROUNDUP 0) / PGSIZE)) :=
  ⟨roomyMachine_image, sysSbrk_eager_refines roomyMachine_image 8192⟩

end Runs

end Xv6.Vm
