import Xv6.Vm.Fault

/-!
# Xv6.Vm.Copy — `copyout`, `copyin` and `copyinstr` over the page table

The three loops of `vm.c` split a user range at page boundaries, `n = PGSIZE - (va - va0)`
bytes at a time. `copyout` and `copyin` look the page up with `walkaddr` and, when that gives
`0`, call `vmfault` (`pageAddr`); `copyout` also wants `PTE_W` on a second walk. `copyinstr`
calls `walkaddr` only. The kernel buffer (`src`, `dst`) is a byte function of its own, indexed
from the start of the buffer: kernel buffers are not user frames.

What the loops do is stated over the process's view (`Machine.view`): a run of `copyout` over
pages that are writable user pages or lazy writes `src` into the view at `[dstva, dstva + len)`
and changes it nowhere else (`copyout_run`); a run of `copyin` over readable or lazy pages reads
the view (`copyin_run`). Both go through the pages one turn at a time (`copyout_turn`,
`copyin_turn`), and both need up to three free pages for each lazy page they fill.
-/

namespace Xv6.Vm

open Xv6.Lib

/-- The first lines of the loops of `copyout` and `copyin`: `pa0 = walkaddr(pagetable, va0)`,
and when that is `0`, `pa0 = vmfault(pagetable, va0, 0)`. -/
def pageAddr (p : Proc) (m : Machine) (pt va0 : Nat) : Except String (Nat × Machine) :=
  let pa0 := walkaddr m pt va0
  if pa0 = 0 then vmfault p m pt va0 else pure (pa0, m)

/-- `copyout(pagetable, dstva, src, len)` in process `p`. -/
def copyout (p : Proc) (m : Machine) (pt dstva : Nat) (src : Nat → UInt8) (len : Nat) :
    Except String (Int × Machine) :=
  if len = 0 then pure (0, m)
  else
    let va0 := PGROUNDDOWN dstva
    if va0 ≥ MAXVA then pure (-1, m)
    else do
      let (pa0, m) ← pageAddr p m pt va0
      if pa0 = 0 then pure (-1, m)
      else
        let (pte, m) ← walk m pt va0 false
        match pte with
        -- `*pte` through a null pointer traps in the kernel
        | none => throw "kerneltrap"
        | some pte =>
          -- forbid copyout over read-only user text pages
          if m.pte pte &&& PTE_W = 0 then pure (-1, m)
          else
            let n := min (PGSIZE - (dstva - va0)) len
            let m := { m with mem := copyBytes m.mem (pa0 + (dstva - va0)) src n }
            copyout p m pt (va0 + PGSIZE) (fun i => src (n + i)) (len - n)
termination_by len
decreasing_by
  have : dstva - PGROUNDDOWN dstva < PGSIZE := by
    unfold PGROUNDDOWN PGSIZE
    omega
  omega

/-- `copyin(pagetable, dst, srcva, len)` in process `p`, into the kernel buffer `dst` from
`pos` on. -/
def copyin (p : Proc) (m : Machine) (pt : Nat) (dst : Nat → UInt8) (pos srcva len : Nat) :
    Except String (Int × (Nat → UInt8) × Machine) :=
  if len = 0 then pure (0, dst, m)
  else do
    let va0 := PGROUNDDOWN srcva
    let (pa0, m) ← pageAddr p m pt va0
    if pa0 = 0 then pure (-1, dst, m)
    else
      let n := min (PGSIZE - (srcva - va0)) len
      let dst := copyBytes dst pos (fun i => m.mem (pa0 + (srcva - va0) + i)) n
      copyin p m pt dst (pos + n) (va0 + PGSIZE) (len - n)
termination_by len
decreasing_by
  have : srcva - PGROUNDDOWN srcva < PGSIZE := by
    unfold PGROUNDDOWN PGSIZE
    omega
  omega

/-- The inner loop of `copyinstr`: up to `n` bytes from the physical address `a` into `dst` at
`pos`, stopping at a `NUL`, which is copied too; `true` when it found one. -/
def copyinstrPage (mem : Nat → UInt8) (dst : Nat → UInt8) : (n a pos : Nat) → (Nat → UInt8) × Bool
  | 0, _, _ => (dst, false)
  | n + 1, a, pos =>
    if mem a = 0 then (Function.update dst pos 0, true)
    else copyinstrPage mem (Function.update dst pos (mem a)) n (a + 1) (pos + 1)

/-- `copyinstr(pagetable, dst, srcva, max)`, into the kernel buffer `dst` from `pos` on. An inner
loop that finds no `NUL` has run its `n` turns, moving `dst` on and `max` down by `n`. -/
def copyinstr (m : Machine) (pt : Nat) (dst : Nat → UInt8) (pos srcva max : Nat) :
    Int × (Nat → UInt8) :=
  if max = 0 then (-1, dst)
  else
    let va0 := PGROUNDDOWN srcva
    let pa0 := walkaddr m pt va0
    if pa0 = 0 then (-1, dst)
    else
      let n := min (PGSIZE - (srcva - va0)) max
      match copyinstrPage m.mem dst n (pa0 + (srcva - va0)) pos with
      | (dst, true) => (0, dst)
      | (dst, false) => copyinstr m pt dst (pos + n) (va0 + PGSIZE) (max - n)
termination_by max
decreasing_by
  have : srcva - PGROUNDDOWN srcva < PGSIZE := by
    unfold PGROUNDDOWN PGSIZE
    omega
  omega

/-! ## The pages a copy goes through -/

/-- A page `copyin` reads: a user page, or a lazy page (no translation yet). -/
def Machine.Readable (m : Machine) (pt va0 : Nat) : Prop :=
  m.leaf pt va0 = none ∨ ∃ v, m.leaf pt va0 = some v ∧ v &&& PTE_U ≠ 0

/-- A page `copyout` writes: a user page with `PTE_W`, or a lazy page. -/
def Machine.Writable (m : Machine) (pt va0 : Nat) : Prop :=
  m.leaf pt va0 = none ∨ ∃ v, m.leaf pt va0 = some v ∧ v &&& PTE_U ≠ 0 ∧ v &&& PTE_W ≠ 0

theorem Machine.Writable.readable {m : Machine} {pt va0 : Nat} (h : m.Writable pt va0) :
    m.Readable pt va0 := by
  rcases h with h | ⟨v, hv, hU, -⟩
  · exact .inl h
  · exact .inr ⟨v, hv, hU⟩

/-- A page `copyout` refuses: at or above `MAXVA`, or mapped without `PTE_U` or without
`PTE_W`. -/
def Machine.Unwritable (m : Machine) (pt va0 : Nat) : Prop :=
  MAXVA ≤ va0 ∨ ∃ v, m.leaf pt va0 = some v ∧ (v &&& PTE_U = 0 ∨ v &&& PTE_W = 0)

theorem Machine.Writable.not_unwritable {m : Machine} {pt va0 : Nat} (hw : m.Writable pt va0)
    (hlt : va0 < MAXVA) : ¬ m.Unwritable pt va0 := by
  rintro (hm | ⟨v, hv, hvb⟩)
  · omega
  · rcases hw with hn | ⟨v', hv', hU, hW⟩
    · rw [hv] at hn
      cases hn
    · rw [hv] at hv'
      cases hv'
      rcases hvb with h | h
      · exact hU h
      · exact hW h

/-- The number of pages that `[va, va + len)` meets. -/
def pagesCovering (va len : Nat) : Nat :=
  if len = 0 then 0 else (va + len - 1) / PGSIZE - va / PGSIZE + 1

/-- One turn of a copy loop leaves one page fewer. -/
theorem pagesCovering_turn {va len : Nat} (hlen : len ≠ 0) :
    pagesCovering (PGROUNDDOWN va + PGSIZE) (len - min (PGSIZE - (va - PGROUNDDOWN va)) len) + 1 =
      pagesCovering va len := by
  unfold pagesCovering PGROUNDDOWN
  unfold PGSIZE
  split_ifs <;> omega

theorem PGROUNDDOWN_aligned (va : Nat) : PGROUNDDOWN va % PGSIZE = 0 := by
  unfold PGROUNDDOWN PGSIZE
  omega

theorem PGROUNDDOWN_le (va : Nat) : PGROUNDDOWN va ≤ va := by
  unfold PGROUNDDOWN PGSIZE
  omega

/-- What `pageAddr` does on any page below `MAXVA`: it keeps the view, the well-formedness and
every translation off the page, and takes at most three pages. A frame it gives is that of the
page's user translation, which was there already or has just been filled into a lazy page with
`PTE_W`; it gives `0` for a page without `PTE_U`, for a lazy page at or above `sz`, and for a lazy
page when fewer than three pages were free. -/
theorem pageAddr_cases {p : Proc} {m : Machine} {va0 : Nat} (hW : Wf m p.pagetable)
    (hsz : p.sz ≤ MAXVA) (hal : va0 % PGSIZE = 0) (hlt : va0 < MAXVA) :
    ∃ pa m₁, pageAddr p m p.pagetable va0 = .ok (pa, m₁) ∧ Wf m₁ p.pagetable ∧
      (∀ a, a < MAXVA → m₁.view p a = m.view p a) ∧
      (∀ a, a < MAXVA → a / PGSIZE ≠ va0 / PGSIZE → m₁.leaf p.pagetable a = m.leaf p.pagetable a) ∧
      m.free.length ≤ m₁.free.length + 3 ∧
      (pa = 0 → (m.leaf p.pagetable va0 = none → p.sz ≤ va0 ∨ m.free.length ≤ 2) ∧
        ∀ v, m.leaf p.pagetable va0 = some v → v &&& PTE_U = 0 ∨ PTE2PA v = 0) ∧
      (pa ≠ 0 → ∃ v, m₁.leaf p.pagetable va0 = some v ∧ PTE2PA v = pa ∧ v &&& PTE_U ≠ 0 ∧
        (m.leaf p.pagetable va0 = some v ∨
          (m.leaf p.pagetable va0 = none ∧ v &&& PTE_W ≠ 0))) := by
  have hlook : pageAddr p m p.pagetable va0 =
      if walkaddr m p.pagetable va0 = 0 then vmfault p m p.pagetable va0
      else pure (walkaddr m p.pagetable va0, m) := rfl
  cases hl : m.leaf p.pagetable va0 with
  | none =>
    have hwa : walkaddr m p.pagetable va0 = 0 := by rw [walkaddr_eq hlt, hl]
    rw [hlook, if_pos hwa]
    by_cases hs : va0 < p.sz
    · -- a lazy page: `vmfault` fills it, or gives up with every translation as it was
      obtain ⟨pa, m₁, hf, hW₁, hview, hc, hzero, hpos⟩ := vmfault_lazy hW hsz hal hs hl
      refine ⟨pa, m₁, hf, hW₁, hview, fun a ha hne => ?_, hc,
        fun h0 => ⟨fun _ => .inr (hzero h0).1, fun v hv => by cases hv⟩, fun hpa => ?_⟩
      · rcases eq_or_ne pa 0 with h0 | h0
        · exact (hzero h0).2 a ha
        · obtain ⟨v, -, -, -, -, hother⟩ := hpos h0
          exact hother a ha hne
      · obtain ⟨v, hv, hpv, hU, hWv, -⟩ := hpos hpa
        exact ⟨v, hv, hpv, hU, .inr ⟨rfl, hWv⟩⟩
    · -- at or above `sz`: nothing to fill
      rw [vmfault_not_lazy hlt hal (fun h => hs h.2)]
      exact ⟨0, m, rfl, hW, fun _ _ => rfl, fun _ _ _ => rfl, Nat.le_add_right _ _,
        fun _ => ⟨fun _ => .inl (by omega), fun v hv => by cases hv⟩, fun h => absurd rfl h⟩
  | some v =>
    by_cases hU : v &&& PTE_U = 0 ∨ PTE2PA v = 0
    · -- no `PTE_U`, or no frame: `walkaddr` gives `0` and `vmfault` finds the page mapped
      have hwa : walkaddr m p.pagetable va0 = 0 := by
        rw [walkaddr_eq hlt, hl]
        show (if v &&& PTE_U = 0 then 0 else PTE2PA v) = 0
        by_cases hU' : v &&& PTE_U = 0
        · exact if_pos hU'
        · rw [if_neg hU']
          exact hU.resolve_left hU'
      rw [hlook, if_pos hwa, vmfault_not_lazy hlt hal (by rw [hl]; simp)]
      refine ⟨0, m, rfl, hW, fun _ _ => rfl, fun _ _ _ => rfl, Nat.le_add_right _ _,
        fun _ => ⟨fun h => ?_, fun v' hv' => ?_⟩, fun h => absurd rfl h⟩
      · cases h
      · cases hv'
        exact hU
    · -- a user page: its frame
      obtain ⟨hU, hpos⟩ := not_or.mp hU
      have hwa : walkaddr m p.pagetable va0 = PTE2PA v := by
        rw [walkaddr_eq hlt, hl]
        exact if_neg hU
      rw [hlook, if_neg (hwa ▸ hpos), hwa]
      exact ⟨PTE2PA v, m, rfl, hW, fun _ _ => rfl, fun _ _ _ => rfl, Nat.le_add_right _ _,
        fun h => absurd h hpos, fun _ => ⟨v, hl, rfl, hU, .inl rfl⟩⟩

/-- `pageAddr` on a readable page below `sz`: the frame of the page, which now has a user
translation (writable when the page was writable or lazy), with the view and the
well-formedness kept, no other translation changed and at most three pages taken. A lazy page
needs three free pages. -/
theorem pageAddr_ok {p : Proc} {m : Machine} {va0 : Nat} (hW : Wf m p.pagetable)
    (hsz : p.sz ≤ TRAPFRAME) (hal : va0 % PGSIZE = 0) (hva0 : va0 < p.sz)
    (hr : m.Readable p.pagetable va0) (hfree : m.leaf p.pagetable va0 = none → 3 ≤ m.free.length) :
    ∃ v m₁, pageAddr p m p.pagetable va0 = .ok (PTE2PA v, m₁) ∧ PTE2PA v ≠ 0 ∧
      m₁.leaf p.pagetable va0 = some v ∧ v &&& PTE_U ≠ 0 ∧
      (m.Writable p.pagetable va0 → v &&& PTE_W ≠ 0) ∧ Wf m₁ p.pagetable ∧
      (∀ a, a < MAXVA → m₁.view p a = m.view p a) ∧
      (∀ a, a < MAXVA → a / PGSIZE ≠ va0 / PGSIZE → m₁.leaf p.pagetable a = m.leaf p.pagetable a) ∧
      m.free.length ≤ m₁.free.length + 3 := by
  have hmax := TRAPFRAME_le_MAXVA
  obtain ⟨pa, m₁, hpa, hW₁, hview, hother, hc, hzero, hpos⟩ :=
    pageAddr_cases hW (by omega) hal (by omega)
  -- a readable page below `sz` with the pages to fill it gets its frame: a user page below
  -- `TRAPFRAME` has one in RAM above the kernel
  have hne : pa ≠ 0 := by
    intro h0
    obtain ⟨hlazy, huser⟩ := hzero h0
    rcases hr with hn | ⟨v, hv, hU⟩
    · have := hfree hn
      rcases hlazy hn with h | h <;> omega
    · have hge := hW.frame_ge va0 v (by unfold TRAPFRAME at hsz; omega) hv
      have := hW.kend_pos
      rcases huser v hv with h | h
      · exact hU h
      · omega
  obtain ⟨v, hv, rfl, hU, hold⟩ := hpos hne
  refine ⟨v, m₁, hpa, hne, hv, hU, fun hw => ?_, hW₁, hview, hother, hc⟩
  rcases hold with hsame | ⟨-, hWv⟩
  · rcases hw with hn | ⟨v', hv', -, hW'⟩
    · rw [hsame] at hn
      cases hn
    · rw [hsame] at hv'
      cases hv'
      exact hW'
  · exact hWv

/-- `MAXVA` is a page boundary. -/
theorem lt_MAXVA_of_PGROUNDDOWN {a : Nat} (h : PGROUNDDOWN a < MAXVA) : a < MAXVA := by
  unfold PGROUNDDOWN at h
  unfold MAXVA PGSIZE at *
  omega

theorem PGROUNDDOWN_page (va : Nat) : PGROUNDDOWN va / PGSIZE = va / PGSIZE := by
  unfold PGROUNDDOWN PGSIZE
  omega

theorem PGROUNDDOWN_eq_of_page {a b : Nat} (h : a / PGSIZE = b / PGSIZE) :
    PGROUNDDOWN a = PGROUNDDOWN b := by
  unfold PGROUNDDOWN
  rw [h]

/-! ## `copyout` -/

/-- A turn of `copyout` past its page lookup in `pagetable`, when the lookup gave a frame
`pa0 ≠ 0` and the page has translation `v`: `-1` without `PTE_W`, else the copy into the frame and the rest of the
loop from the next page. -/
theorem copyout_unfold {p : Proc} {m m₁ : Machine} {pt dstva len pa0 v : Nat}
    (src : Nat → UInt8) (hlen : len ≠ 0) (hlt : PGROUNDDOWN dstva < MAXVA)
    (hpa : pageAddr p m pt (PGROUNDDOWN dstva) = .ok (pa0, m₁)) (hpos : pa0 ≠ 0)
    (hv : m₁.leaf pt (PGROUNDDOWN dstva) = some v) :
    copyout p m pt dstva src len =
      if v &&& PTE_W = 0 then .ok (-1, m₁)
      else copyout p
        { m₁ with
          mem := copyBytes m₁.mem (pa0 + (dstva - PGROUNDDOWN dstva)) src
            (min (PGSIZE - (dstva - PGROUNDDOWN dstva)) len) }
        pt (PGROUNDDOWN dstva + PGSIZE)
        (fun i => src (min (PGSIZE - (dstva - PGROUNDDOWN dstva)) len + i))
        (len - min (PGSIZE - (dstva - PGROUNDDOWN dstva)) len) := by
  obtain ⟨e, hslot, -, he⟩ := Machine.leaf_eq_some.mp hv
  rw [copyout, if_neg hlen]
  dsimp only
  rw [if_neg (Nat.not_le.mpr hlt), hpa, ok_bind]
  dsimp only
  -- the second walk finds the slot of the translation
  rw [if_neg hpos, walk_false hlt, hslot, ok_bind]
  dsimp only
  rw [he]
  rfl

/-- One turn of `copyout` on a writable page below `sz`: the page's frame takes the first `n`
bytes of `src`, which the view now shows at `[dstva, dstva + n)`, the page is a writable user
page, and the loop goes on from the next page with the rest. -/
theorem copyout_turn {p : Proc} {m : Machine} {dstva len : Nat} (src : Nat → UInt8)
    (hW : Wf m p.pagetable) (hsz : p.sz ≤ TRAPFRAME) (hlen : len ≠ 0)
    (hva0 : PGROUNDDOWN dstva < p.sz) (hw : m.Writable p.pagetable (PGROUNDDOWN dstva))
    (hfree : m.leaf p.pagetable (PGROUNDDOWN dstva) = none → 3 ≤ m.free.length) :
    ∃ m₁, copyout p m p.pagetable dstva src len =
        copyout p m₁ p.pagetable (PGROUNDDOWN dstva + PGSIZE)
          (fun i => src (min (PGSIZE - (dstva - PGROUNDDOWN dstva)) len + i))
          (len - min (PGSIZE - (dstva - PGROUNDDOWN dstva)) len) ∧
      Wf m₁ p.pagetable ∧
      (∀ a, a < MAXVA → m₁.view p a =
        if dstva ≤ a ∧ a < dstva + min (PGSIZE - (dstva - PGROUNDDOWN dstva)) len then
          some (src (a - dstva)) else m.view p a) ∧
      (∃ v, m₁.leaf p.pagetable dstva = some v ∧ v &&& PTE_U ≠ 0 ∧ v &&& PTE_W ≠ 0) ∧
      (∀ a, a < MAXVA → a / PGSIZE ≠ dstva / PGSIZE →
        m₁.leaf p.pagetable a = m.leaf p.pagetable a) ∧
      m.free.length ≤ m₁.free.length + 3 := by
  have hmax := TRAPFRAME_le_MAXVA
  have hal := PGROUNDDOWN_aligned dstva
  have hle := PGROUNDDOWN_le dstva
  have hoff : dstva - PGROUNDDOWN dstva < PGSIZE := by
    unfold PGROUNDDOWN PGSIZE
    omega
  have hlt : PGROUNDDOWN dstva < MAXVA := by omega
  obtain ⟨v, m₁, hpa, hpos, hself, hU, hWr, hW₁, hview, hother, hc⟩ :=
    pageAddr_ok hW hsz hal hva0 hw.readable hfree
  have hWv := hWr hw
  rw [copyout_unfold src hlen hlt hpa hpos hself, if_neg hWv]
  obtain ⟨hW₂, hl₂, hview₂⟩ := @view_write_frame p m₁ (PGROUNDDOWN dstva) v
    (dstva - PGROUNDDOWN dstva) (min (PGSIZE - (dstva - PGROUNDDOWN dstva)) len) src hW₁ hlt hal
    hself hU (by omega)
  refine ⟨_, rfl, hW₂, fun a ha => ?_, ⟨v, ?_, hU, hWv⟩, fun a ha hne => ?_, hc⟩
  · rw [hview₂ a ha, Nat.add_sub_cancel' hle, hview a ha]
  · rw [hl₂, Machine.leaf_of_page (PGROUNDDOWN_page dstva).symm, hself]
  · rw [hl₂, hother a ha (by rwa [PGROUNDDOWN_page])]

/-- Any turn of `copyout` on a page below `MAXVA`: it returns `-1`, or the page was writable and
the loop goes on from the next page, with the memory well formed and no translation off the
page changed. -/
theorem copyout_turn_cases {p : Proc} {m : Machine} {dstva len : Nat} (src : Nat → UInt8)
    (hW : Wf m p.pagetable) (hsz : p.sz ≤ MAXVA) (hlen : len ≠ 0)
    (hlt : PGROUNDDOWN dstva < MAXVA) :
    (∃ m₁, copyout p m p.pagetable dstva src len = .ok (-1, m₁)) ∨
      ∃ m₁, copyout p m p.pagetable dstva src len =
          copyout p m₁ p.pagetable (PGROUNDDOWN dstva + PGSIZE)
            (fun i => src (min (PGSIZE - (dstva - PGROUNDDOWN dstva)) len + i))
            (len - min (PGSIZE - (dstva - PGROUNDDOWN dstva)) len) ∧
        Wf m₁ p.pagetable ∧ m.Writable p.pagetable (PGROUNDDOWN dstva) ∧
        (∀ a, a < MAXVA → a / PGSIZE ≠ dstva / PGSIZE →
          m₁.leaf p.pagetable a = m.leaf p.pagetable a) := by
  have hal := PGROUNDDOWN_aligned dstva
  have hoff : dstva - PGROUNDDOWN dstva < PGSIZE := by
    unfold PGROUNDDOWN PGSIZE
    omega
  obtain ⟨pa, m₁, hpa, hW₁, -, hother, -, -, hpos⟩ := pageAddr_cases hW hsz hal hlt
  by_cases h0 : pa = 0
  · -- no frame: `-1`
    subst h0
    refine .inl ⟨m₁, ?_⟩
    rw [copyout, if_neg hlen]
    dsimp only
    rw [if_neg (Nat.not_le.mpr hlt), hpa, ok_bind]
    rfl
  · obtain ⟨v, hv, rfl, hU, hold⟩ := hpos h0
    rw [copyout_unfold src hlen hlt hpa h0 hv]
    by_cases hWv : v &&& PTE_W = 0
    · exact .inl ⟨m₁, if_pos hWv⟩
    · -- the frame takes the bytes; the page was a writable user page or a lazy one
      rw [if_neg hWv]
      obtain ⟨hW₂, hl₂, -⟩ := @view_write_frame p m₁ (PGROUNDDOWN dstva) v
        (dstva - PGROUNDDOWN dstva) (min (PGSIZE - (dstva - PGROUNDDOWN dstva)) len) src hW₁ hlt
        hal hv hU (by omega)
      refine .inr ⟨_, rfl, hW₂, ?_, fun a ha hne => ?_⟩
      · rcases hold with hsame | ⟨hn, -⟩
        · exact .inr ⟨v, hsame, hU, hWv⟩
        · exact .inl hn
      · rw [hl₂, hother a ha (by rwa [PGROUNDDOWN_page])]

/-- The arithmetic of a turn of a copy loop at `va` with `len` bytes left: the turn takes
`n ≥ 1` bytes on `va`'s page, and what is left starts on the next page right after them. -/
theorem turn_arith {va len : Nat} (hlen : len ≠ 0) :
    1 ≤ min (PGSIZE - (va - PGROUNDDOWN va)) len ∧
      (∀ a, va ≤ a → a < va + min (PGSIZE - (va - PGROUNDDOWN va)) len → a / PGSIZE = va / PGSIZE) ∧
      (∀ b, PGROUNDDOWN va + PGSIZE ≤ b → va / PGSIZE < b / PGSIZE) ∧
      (len - min (PGSIZE - (va - PGROUNDDOWN va)) len = 0 ∨
        PGROUNDDOWN va + PGSIZE = va + min (PGSIZE - (va - PGROUNDDOWN va)) len) := by
  unfold PGROUNDDOWN PGSIZE
  refine ⟨by omega, fun a h1 h2 => by omega, fun b hb => by omega, by omega⟩

/-- The two windows of a copy turn make up the range: the first `n` bytes from `dstva`, and the
rest from the next page on. -/
theorem copy_windows {β : Type} {dstva len : Nat} (hlen : len ≠ 0) (x old : Nat → β) (a : Nat) :
    (if PGROUNDDOWN dstva + PGSIZE ≤ a ∧
          a < PGROUNDDOWN dstva + PGSIZE + (len - min (PGSIZE - (dstva - PGROUNDDOWN dstva)) len)
        then x (min (PGSIZE - (dstva - PGROUNDDOWN dstva)) len + (a - (PGROUNDDOWN dstva + PGSIZE)))
      else if dstva ≤ a ∧ a < dstva + min (PGSIZE - (dstva - PGROUNDDOWN dstva)) len
        then x (a - dstva) else old a) =
      if dstva ≤ a ∧ a < dstva + len then x (a - dstva) else old a := by
  obtain ⟨-, -, -, hsplit⟩ := @turn_arith dstva len hlen
  have hle := PGROUNDDOWN_le dstva
  set va0 := PGROUNDDOWN dstva
  set n := min (PGSIZE - (dstva - va0)) len with hn
  by_cases hw2 : va0 + PGSIZE ≤ a ∧ a < va0 + PGSIZE + (len - n)
  · rw [if_pos hw2, if_pos (by rcases hsplit with h | h <;> omega),
      show n + (a - (va0 + PGSIZE)) = a - dstva by rcases hsplit with h | h <;> omega]
  · rw [if_neg hw2]
    by_cases hw1 : dstva ≤ a ∧ a < dstva + n
    · rw [if_pos hw1, if_pos (by omega)]
    · rw [if_neg hw1, if_neg (by rcases hsplit with h | h <;> omega)]

/-- A run of `copyout` over a range whose pages all lie below `sz` and are writable user pages or
lazy, with three free pages for each page the range meets: it returns `0` and keeps the memory
well formed; the view shows `src` at `[dstva, dstva + len)` and is unchanged elsewhere; every
page of the range is now a writable user page, and no translation off the range changed. -/
theorem copyout_run {p : Proc} (hsz : p.sz ≤ TRAPFRAME) :
    ∀ (len dstva : Nat) (src : Nat → UInt8) (m : Machine), Wf m p.pagetable →
      (∀ a, dstva ≤ a → a < dstva + len →
        PGROUNDDOWN a < p.sz ∧ m.Writable p.pagetable (PGROUNDDOWN a)) →
      3 * pagesCovering dstva len ≤ m.free.length →
      ∃ m', copyout p m p.pagetable dstva src len = .ok (0, m') ∧ Wf m' p.pagetable ∧
        (∀ a, a < MAXVA → m'.view p a =
          if dstva ≤ a ∧ a < dstva + len then some (src (a - dstva)) else m.view p a) ∧
        (∀ a, dstva ≤ a → a < dstva + len →
          ∃ v, m'.leaf p.pagetable a = some v ∧ v &&& PTE_U ≠ 0 ∧ v &&& PTE_W ≠ 0) ∧
        (∀ a, a < MAXVA → (∀ b, dstva ≤ b → b < dstva + len → a / PGSIZE ≠ b / PGSIZE) →
          m'.leaf p.pagetable a = m.leaf p.pagetable a) := by
  have hmax := TRAPFRAME_le_MAXVA
  intro len
  -- induction on the bytes left, one page a turn
  induction len using Nat.strong_induction_on with
  | _ len ih =>
  intro dstva src m hW hpages hfree
  by_cases hlen : len = 0
  · subst hlen
    refine ⟨m, by rw [copyout, if_pos rfl]; rfl, hW, fun a _ => ?_, fun a h1 h2 => by omega,
      fun _ _ _ => rfl⟩
    rw [if_neg (by omega)]
  · obtain ⟨hsz0, hw0⟩ := hpages dstva (le_refl _) (by omega)
    have hpc : 1 ≤ pagesCovering dstva len := by
      unfold pagesCovering
      rw [if_neg hlen]
      omega
    obtain ⟨m₁, heq, hW₁, hview₁, ⟨v, hv, hU, hWv⟩, hother₁, hc₁⟩ :=
      copyout_turn src hW hsz hlen hsz0 hw0 (fun _ => by omega)
    obtain ⟨hn1, hsame, hlater, hsplit⟩ := @turn_arith dstva len hlen
    have hturn := @pagesCovering_turn dstva len hlen
    have hle := PGROUNDDOWN_le dstva
    set va0 := PGROUNDDOWN dstva with hva0
    set n := min (PGSIZE - (dstva - va0)) len with hn
    -- the rest of the range lies in the range, on later pages
    have hrest : ∀ a, va0 + PGSIZE ≤ a → a < va0 + PGSIZE + (len - n) →
        dstva ≤ a ∧ a < dstva + len := by
      intro a h1 h2
      rcases hsplit with h | h <;> omega
    have hpages₁ : ∀ a, va0 + PGSIZE ≤ a → a < va0 + PGSIZE + (len - n) →
        PGROUNDDOWN a < p.sz ∧ m₁.Writable p.pagetable (PGROUNDDOWN a) := by
      intro a h1 h2
      obtain ⟨hs, hw⟩ := hpages a (hrest a h1 h2).1 (hrest a h1 h2).2
      refine ⟨hs, ?_⟩
      have hne : PGROUNDDOWN a / PGSIZE ≠ dstva / PGSIZE := by
        rw [PGROUNDDOWN_page]
        exact (Nat.ne_of_lt (hlater a h1)).symm
      have hl : m₁.leaf p.pagetable (PGROUNDDOWN a) = m.leaf p.pagetable (PGROUNDDOWN a) :=
        hother₁ _ (by omega) hne
      unfold Machine.Writable
      rw [hl]
      exact hw
    obtain ⟨m', hrun, hW', hview', hpage', hother'⟩ :=
      ih (len - n) (by omega) (va0 + PGSIZE) (fun i => src (n + i)) m₁ hW₁ hpages₁ (by omega)
    refine ⟨m', heq.trans hrun, hW', fun a ha => ?_, fun a h1 h2 => ?_, fun a ha hoff => ?_⟩
    · -- the two windows make up the range
      rw [hview' a ha, hview₁ a ha]
      by_cases hw2 : va0 + PGSIZE ≤ a ∧ a < va0 + PGSIZE + (len - n)
      · rw [if_pos hw2, if_pos (hrest a hw2.1 hw2.2),
          show n + (a - (va0 + PGSIZE)) = a - dstva by rcases hsplit with h | h <;> omega]
      · rw [if_neg hw2]
        by_cases hw1 : dstva ≤ a ∧ a < dstva + n
        · rw [if_pos hw1, if_pos (by omega)]
        · rw [if_neg hw1, if_neg (by rcases hsplit with h | h <;> omega)]
    · by_cases hw1 : a < dstva + n
      · -- on the first page, done by the first turn and left by the rest
        have hp := hsame a h1 hw1
        refine ⟨v, ?_, hU, hWv⟩
        have ha : a < MAXVA := lt_MAXVA_of_PGROUNDDOWN (by have := (hpages a h1 h2).1; omega)
        rw [hother' a ha (fun b hb1 _ => by have := hlater b hb1; omega),
          Machine.leaf_of_page hp, hv]
      · exact hpage' a (by rcases hsplit with h | h <;> omega) (by rcases hsplit with h | h <;> omega)
    · rw [hother' a ha (fun b hb1 hb2 => hoff b (hrest b hb1 hb2).1 (hrest b hb1 hb2).2),
        hother₁ a ha (hoff dstva (le_refl _) (by omega))]

/-- A `copyout` over a range that meets a page it refuses returns `-1`: each turn before that page
fails or leaves the page as it was. -/
theorem copyout_unwritable {p : Proc} (hsz : p.sz ≤ MAXVA) :
    ∀ (len dstva : Nat) (src : Nat → UInt8) (m : Machine), Wf m p.pagetable →
      (∃ a, dstva ≤ a ∧ a < dstva + len ∧ m.Unwritable p.pagetable (PGROUNDDOWN a)) →
      ∃ m', copyout p m p.pagetable dstva src len = .ok (-1, m') := by
  intro len
  induction len using Nat.strong_induction_on with
  | _ len ih =>
  rintro dstva src m hW ⟨a, h1, h2, hbad⟩
  have hlen : len ≠ 0 := by omega
  by_cases hmax : MAXVA ≤ PGROUNDDOWN dstva
  · -- this turn's page lies at or above `MAXVA`: refused before any lookup
    refine ⟨m, ?_⟩
    rw [copyout, if_neg hlen]
    dsimp only
    rw [if_pos hmax]
    rfl
  · have hlt : PGROUNDDOWN dstva < MAXVA := Nat.lt_of_not_le hmax
    rcases copyout_turn_cases src hW hsz hlen hlt with hfail | ⟨m₁, heq, hW₁, hw, hother⟩
    · exact hfail
    · obtain ⟨hn1, hsame, hlater, hsplit⟩ := @turn_arith dstva len hlen
      set va0 := PGROUNDDOWN dstva with hva0
      set n := min (PGSIZE - (dstva - va0)) len with hn
      by_cases ha : a < dstva + n
      · -- the refused page would be this turn's page, which was writable
        rw [PGROUNDDOWN_eq_of_page (hsame a h1 ha)] at hbad
        exact absurd hbad (hw.not_unwritable hlt)
      · -- it lies further on, and this turn left it as it was
        have hge : va0 + PGSIZE ≤ a := by rcases hsplit with h | h <;> omega
        have hbad₁ : m₁.Unwritable p.pagetable (PGROUNDDOWN a) := by
          by_cases hmaxa : MAXVA ≤ PGROUNDDOWN a
          · exact .inl hmaxa
          · have hne : PGROUNDDOWN a / PGSIZE ≠ dstva / PGSIZE := by
              rw [PGROUNDDOWN_page]
              exact (Nat.ne_of_lt (hlater a hge)).symm
            unfold Machine.Unwritable
            rw [hother _ (Nat.lt_of_not_le hmaxa) hne]
            exact hbad
        obtain ⟨m', hrun⟩ := ih (len - n) (by omega) (va0 + PGSIZE) (fun i => src (n + i)) m₁ hW₁
          ⟨a, hge, by rcases hsplit with h | h <;> omega, hbad₁⟩
        exact ⟨m', heq.trans hrun⟩

/-! ## `copyout` into an image being built

`kexec` copies the arguments into the stack of a page table that is not yet the process's own.
Its pages are mapped already, so the lookups never reach `vmfault`, and what the caller is does
not matter. -/

/-- On a user page with a frame, `pageAddr` is that frame, in any page table and for any caller. -/
theorem pageAddr_user {p : Proc} {m : Machine} {pt va0 v : Nat} (hlt : va0 < MAXVA)
    (hl : m.leaf pt va0 = some v) (hU : v &&& PTE_U ≠ 0) (hpos : PTE2PA v ≠ 0) :
    pageAddr p m pt va0 = .ok (PTE2PA v, m) := by
  have hwa : walkaddr m pt va0 = PTE2PA v := by
    rw [walkaddr_eq hlt, hl]
    exact if_neg hU
  show (if walkaddr m pt va0 = 0 then vmfault p m pt va0 else pure (walkaddr m pt va0, m)) = _
  rw [hwa, if_neg hpos]
  rfl

/-- A run of `copyout` by any process `p` into the page table of an image `q` over a range of
writable user pages below `TRAMPOLINE`: it returns `0`, keeps the memory well formed and every
translation, and the image's view shows `src` at `[dstva, dstva + len)` and is unchanged
elsewhere. -/
theorem copyout_mapped_run {p q : Proc} :
    ∀ (len dstva : Nat) (src : Nat → UInt8) (m : Machine), Wf m q.pagetable →
      (∀ a, dstva ≤ a → a < dstva + len → a < TRAMPOLINE ∧
        ∃ v, m.leaf q.pagetable a = some v ∧ v &&& PTE_U ≠ 0 ∧ v &&& PTE_W ≠ 0) →
      ∃ m', copyout p m q.pagetable dstva src len = .ok (0, m') ∧ Wf m' q.pagetable ∧
        (∀ a, m'.leaf q.pagetable a = m.leaf q.pagetable a) ∧
        ∀ a, a < MAXVA → m'.view q a =
          if dstva ≤ a ∧ a < dstva + len then some (src (a - dstva)) else m.view q a := by
  intro len
  -- induction on the bytes left, one page a turn
  induction len using Nat.strong_induction_on with
  | _ len ih =>
  intro dstva src m hW hpages
  by_cases hlen : len = 0
  · subst hlen
    refine ⟨m, by rw [copyout, if_pos rfl]; rfl, hW, fun _ => rfl, fun a _ => ?_⟩
    rw [if_neg (by omega)]
  · obtain ⟨hT, v, hv, hU, hWv⟩ := hpages dstva (le_refl _) (by omega)
    obtain ⟨hn1, -, hlater, hsplit⟩ := @turn_arith dstva len hlen
    have hle := PGROUNDDOWN_le dstva
    have hal := PGROUNDDOWN_aligned dstva
    have hmax := lt_MAXVA_of_lt_TRAMPOLINE hT
    have hoff : dstva - PGROUNDDOWN dstva < PGSIZE := by
      unfold PGROUNDDOWN PGSIZE
      omega
    -- the page of `dstva` is a user page with a frame above the kernel
    have hv0 : m.leaf q.pagetable (PGROUNDDOWN dstva) = some v := by
      rw [Machine.leaf_of_page (PGROUNDDOWN_page dstva), hv]
    have hpos : PTE2PA v ≠ 0 := by
      have hge := hW.frame_ge dstva v hT hv
      have := hW.kend_pos
      omega
    rw [copyout_unfold src hlen (by omega) (pageAddr_user (by omega) hv0 hU hpos) hpos hv0,
      if_neg hWv]
    set va0 := PGROUNDDOWN dstva with hva0
    set n := min (PGSIZE - (dstva - va0)) len with hn
    obtain ⟨hW₁, hl₁, hview₁⟩ := @view_write_frame q m va0 v (dstva - va0) n src hW (by omega)
      hal hv0 hU (by omega)
    set m₁ : Machine := { m with mem := copyBytes m.mem (PTE2PA v + (dstva - va0)) src n }
    have hpages₁ : ∀ a, va0 + PGSIZE ≤ a → a < va0 + PGSIZE + (len - n) → a < TRAMPOLINE ∧
        ∃ v, m₁.leaf q.pagetable a = some v ∧ v &&& PTE_U ≠ 0 ∧ v &&& PTE_W ≠ 0 := by
      intro a h1 h2
      rw [hl₁ a]
      exact hpages a (by omega) (by rcases hsplit with h | h <;> omega)
    obtain ⟨m', hrun, hW', hl', hview'⟩ :=
      ih (len - n) (by omega) (va0 + PGSIZE) (fun i => src (n + i)) m₁ hW₁ hpages₁
    refine ⟨m', hrun, hW', fun a => (hl' a).trans (hl₁ a), fun a ha => ?_⟩
    rw [hview' a ha, hview₁ a ha, Nat.add_sub_cancel' hle]
    exact copy_windows hlen (fun j => some (src j)) (m.view q) a

/-! ## `copyin` -/

/-- A turn of `copyin` past its page lookup, when the lookup gave a frame `pa0 ≠ 0`: the bytes of
the frame from `srcva`'s offset go into the buffer, and the loop goes on from the next page. -/
theorem copyin_unfold {p : Proc} {m m₁ : Machine} {dst : Nat → UInt8} {pos srcva len pa0 : Nat}
    (hlen : len ≠ 0) (hpa : pageAddr p m p.pagetable (PGROUNDDOWN srcva) = .ok (pa0, m₁))
    (hpos : pa0 ≠ 0) :
    copyin p m p.pagetable dst pos srcva len =
      copyin p m₁ p.pagetable
        (copyBytes dst pos (fun i => m₁.mem (pa0 + (srcva - PGROUNDDOWN srcva) + i))
          (min (PGSIZE - (srcva - PGROUNDDOWN srcva)) len))
        (pos + min (PGSIZE - (srcva - PGROUNDDOWN srcva)) len) (PGROUNDDOWN srcva + PGSIZE)
        (len - min (PGSIZE - (srcva - PGROUNDDOWN srcva)) len) := by
  rw [copyin, if_neg hlen]
  dsimp only
  rw [hpa, ok_bind]
  dsimp only
  rw [if_neg hpos]

/-- One turn of `copyin` on a readable page below `sz`: the buffer takes at `[pos, pos + n)` the
bytes the view shows at `[srcva, srcva + n)` and keeps the rest; the view and the
well-formedness are kept, and the loop goes on from the next page. -/
theorem copyin_turn {p : Proc} {m : Machine} {dst : Nat → UInt8} {pos srcva len : Nat}
    (hW : Wf m p.pagetable) (hsz : p.sz ≤ TRAPFRAME) (hlen : len ≠ 0)
    (hva0 : PGROUNDDOWN srcva < p.sz) (hr : m.Readable p.pagetable (PGROUNDDOWN srcva))
    (hfree : m.leaf p.pagetable (PGROUNDDOWN srcva) = none → 3 ≤ m.free.length) :
    ∃ m₁ dst₁, copyin p m p.pagetable dst pos srcva len =
        copyin p m₁ p.pagetable dst₁ (pos + min (PGSIZE - (srcva - PGROUNDDOWN srcva)) len)
          (PGROUNDDOWN srcva + PGSIZE) (len - min (PGSIZE - (srcva - PGROUNDDOWN srcva)) len) ∧
      Wf m₁ p.pagetable ∧ (∀ a, a < MAXVA → m₁.view p a = m.view p a) ∧
      (∀ j, j < min (PGSIZE - (srcva - PGROUNDDOWN srcva)) len →
        m.view p (srcva + j) = some (dst₁ (pos + j))) ∧
      (∀ i, ¬ (pos ≤ i ∧ i < pos + min (PGSIZE - (srcva - PGROUNDDOWN srcva)) len) →
        dst₁ i = dst i) ∧
      (∀ a, a < MAXVA → a / PGSIZE ≠ srcva / PGSIZE →
        m₁.leaf p.pagetable a = m.leaf p.pagetable a) ∧
      m.free.length ≤ m₁.free.length + 3 := by
  have hmax := TRAPFRAME_le_MAXVA
  have hal := PGROUNDDOWN_aligned srcva
  have hle := PGROUNDDOWN_le srcva
  have hlt : PGROUNDDOWN srcva < MAXVA := by omega
  obtain ⟨-, hsame, -, -⟩ := @turn_arith srcva len hlen
  obtain ⟨v, m₁, hpa, hpos, hself, hU, -, hW₁, hview, hother, hc⟩ :=
    pageAddr_ok hW hsz hal hva0 hr hfree
  rw [copyin_unfold hlen hpa hpos]
  refine ⟨m₁, _, rfl, hW₁, hview, fun j hj => ?_, fun i hi => ?_,
    fun a ha hne => hother a ha (by rwa [PGROUNDDOWN_page]), hc⟩
  · -- the byte at `srcva + j` lies on the page, at offset `srcva - va0 + j` of its frame
    have hp : (srcva + j) / PGSIZE = PGROUNDDOWN srcva / PGSIZE := by
      rw [PGROUNDDOWN_page]
      exact hsame _ (by omega) (by omega)
    have ha : srcva + j < MAXVA := by
      apply lt_MAXVA_of_PGROUNDDOWN
      rw [PGROUNDDOWN_eq_of_page hp, PGROUNDDOWN_eq_of_page (PGROUNDDOWN_page srcva)]
      exact hlt
    have hmod : (srcva + j) % PGSIZE = srcva - PGROUNDDOWN srcva + j := by
      unfold PGROUNDDOWN at hj ⊢
      unfold PGSIZE at hj ⊢
      omega
    rw [← hview _ ha, view_of_user ((Machine.leaf_of_page hp).trans hself) hU,
      copyBytes_of_mem dst _ (by omega) (by omega), hmod, Nat.add_sub_cancel_left, Nat.add_assoc]
  · show (if pos ≤ i ∧ i < pos + _ then _ else dst i) = dst i
    exact if_neg hi

/-- A run of `copyin` over a range whose pages all lie below `sz` and are user pages or lazy, with
three free pages for each page the range meets when one of them is lazy: it returns `0`, the
buffer holds at `[pos, pos + len)` what the view shows at `[srcva, srcva + len)` and is unchanged
elsewhere, and the view and the well-formedness are kept. -/
theorem copyin_run {p : Proc} (hsz : p.sz ≤ TRAPFRAME) :
    ∀ (len srcva pos : Nat) (dst : Nat → UInt8) (m : Machine), Wf m p.pagetable →
      (∀ a, srcva ≤ a → a < srcva + len →
        PGROUNDDOWN a < p.sz ∧ m.Readable p.pagetable (PGROUNDDOWN a)) →
      ((∃ a, srcva ≤ a ∧ a < srcva + len ∧ m.leaf p.pagetable (PGROUNDDOWN a) = none) →
        3 * pagesCovering srcva len ≤ m.free.length) →
      ∃ dst' m', copyin p m p.pagetable dst pos srcva len = .ok (0, dst', m') ∧
        Wf m' p.pagetable ∧ (∀ a, a < MAXVA → m'.view p a = m.view p a) ∧
        (∀ j, j < len → m.view p (srcva + j) = some (dst' (pos + j))) ∧
        (∀ i, ¬ (pos ≤ i ∧ i < pos + len) → dst' i = dst i) := by
  have hmax := TRAPFRAME_le_MAXVA
  intro len
  -- induction on the bytes left, one page a turn
  induction len using Nat.strong_induction_on with
  | _ len ih =>
  intro srcva pos dst m hW hpages hfree
  by_cases hlen : len = 0
  · subst hlen
    refine ⟨dst, m, by rw [copyin, if_pos rfl]; rfl, hW, fun _ _ => rfl, fun j hj => by omega,
      fun _ _ => rfl⟩
  · obtain ⟨hsz0, hr0⟩ := hpages srcva (le_refl _) (by omega)
    have hpc : 1 ≤ pagesCovering srcva len := by
      unfold pagesCovering
      rw [if_neg hlen]
      omega
    obtain ⟨m₁, dst₁, heq, hW₁, hview₁, hbytes₁, hkeep₁, hother₁, hc₁⟩ :=
      @copyin_turn p m dst pos srcva len hW hsz hlen hsz0 hr0
        (fun hn => by have := hfree ⟨srcva, le_refl _, by omega, hn⟩; omega)
    obtain ⟨hn1, -, hlater, hsplit⟩ := @turn_arith srcva len hlen
    have hturn := @pagesCovering_turn srcva len hlen
    set va0 := PGROUNDDOWN srcva with hva0
    set n := min (PGSIZE - (srcva - va0)) len with hn
    have hrest : ∀ a, va0 + PGSIZE ≤ a → a < va0 + PGSIZE + (len - n) →
        srcva ≤ a ∧ a < srcva + len := by
      intro a h1 h2
      rcases hsplit with h | h <;> omega
    -- the rest of the range lies off the first page, where the translations are those of `m`
    have hleaf : ∀ a, va0 + PGSIZE ≤ a → a < va0 + PGSIZE + (len - n) →
        m₁.leaf p.pagetable (PGROUNDDOWN a) = m.leaf p.pagetable (PGROUNDDOWN a) := by
      intro a h1 h2
      have hs := (hpages a (hrest a h1 h2).1 (hrest a h1 h2).2).1
      have hne : PGROUNDDOWN a / PGSIZE ≠ srcva / PGSIZE := by
        rw [PGROUNDDOWN_page]
        exact (Nat.ne_of_lt (hlater a h1)).symm
      exact hother₁ _ (by omega) hne
    have hpages₁ : ∀ a, va0 + PGSIZE ≤ a → a < va0 + PGSIZE + (len - n) →
        PGROUNDDOWN a < p.sz ∧ m₁.Readable p.pagetable (PGROUNDDOWN a) := by
      intro a h1 h2
      obtain ⟨hs, hr⟩ := hpages a (hrest a h1 h2).1 (hrest a h1 h2).2
      refine ⟨hs, ?_⟩
      unfold Machine.Readable
      rw [hleaf a h1 h2]
      exact hr
    have hfree₁ : (∃ a, va0 + PGSIZE ≤ a ∧ a < va0 + PGSIZE + (len - n) ∧
        m₁.leaf p.pagetable (PGROUNDDOWN a) = none) →
        3 * pagesCovering (va0 + PGSIZE) (len - n) ≤ m₁.free.length := by
      rintro ⟨a, h1, h2, hnone⟩
      rw [hleaf a h1 h2] at hnone
      have := hfree ⟨a, (hrest a h1 h2).1, (hrest a h1 h2).2, hnone⟩
      omega
    obtain ⟨dst', m', hrun, hW', hview', hbytes', hkeep'⟩ :=
      ih (len - n) (by omega) (va0 + PGSIZE) (pos + n) dst₁ m₁ hW₁ hpages₁ hfree₁
    refine ⟨dst', m', heq.trans hrun, hW', fun a ha => (hview' a ha).trans (hview₁ a ha),
      fun j hj => ?_, fun i hi => ?_⟩
    · by_cases hj1 : j < n
      · -- a byte of the first page, which the rest of the loop leaves in the buffer
        rw [hbytes₁ j hj1, hkeep' (pos + j) (by omega)]
      · -- a byte further on, which the rest of the loop reads from the same view
        have ha : srcva + j < MAXVA :=
          lt_MAXVA_of_PGROUNDDOWN (by have := (hpages (srcva + j) (by omega) (by omega)).1; omega)
        have he1 : va0 + PGSIZE + (j - n) = srcva + j := by rcases hsplit with h | h <;> omega
        have he2 : pos + n + (j - n) = pos + j := by omega
        have hb := hbytes' (j - n) (by omega)
        rw [he1, he2, hview₁ _ ha] at hb
        exact hb
    · rw [hkeep' i (by omega), hkeep₁ i (by omega)]

/-- Zeroed memory with an empty root table at `0x87000000` and three free pages, enough to fill
one lazy page. -/
def roomyMachine : Machine := { freshMachine with free := [0x87001000, 0x87002000, 0x87003000] }

theorem roomyMachine_wf : Wf roomyMachine 0x87000000 :=
  Wf.of_root_empty (by decide) (by decide) freshMachine_root_empty (by decide) (by decide)
    (by decide) (by decide) (by decide)

/-- Zeroed memory with an empty root table at `0x87000000` and six free pages, enough to fill two
pages: a frame and two tables for the first, a frame for the second. -/
def ampleMachine : Machine :=
  { freshMachine with
    free := [0x87001000, 0x87002000, 0x87003000, 0x87004000, 0x87005000, 0x87006000] }

theorem ampleMachine_wf : Wf ampleMachine 0x87000000 :=
  Wf.of_root_empty (by decide) (by decide) freshMachine_root_empty (by decide) (by decide)
    (by decide) (by decide) (by decide)

/-! ## `copyinstr` on a lazy page -/

/-- `copyinstr` and `copyin` part on a lazy page below `sz`: the view shows a `NUL` there, which
`copyin` of one byte reads, with three free pages to fill the page; `copyinstr` looks the page up
with `walkaddr` only, finds no frame and returns `-1` with the buffer untouched. -/
theorem copyinstr_lazy_page (p : Proc) (m : Machine) (hW : Wf m p.pagetable)
    (hsz : p.sz ≤ TRAPFRAME) (dst : Nat → UInt8) (pos srcva max : Nat) (hmax : 0 < max)
    (hs : PGROUNDDOWN srcva < p.sz) (hnone : m.leaf p.pagetable (PGROUNDDOWN srcva) = none)
    (hfree : 3 ≤ m.free.length) :
    m.view p srcva = some 0 ∧
      (∃ dst' m', copyin p m p.pagetable dst pos srcva 1 = .ok (0, dst', m') ∧ dst' pos = 0) ∧
      copyinstr m p.pagetable dst pos srcva max = (-1, dst) := by
  have hmax := TRAPFRAME_le_MAXVA
  have hlt : PGROUNDDOWN srcva < MAXVA := by omega
  have hview : m.view p srcva = some 0 := by
    unfold Machine.view
    rw [Machine.leaf_of_page (PGROUNDDOWN_page srcva).symm, hnone]
    exact if_pos hs
  refine ⟨hview, ?_, ?_⟩
  · -- one byte through `copyin`, which fills the page
    have hpages : ∀ a, srcva ≤ a → a < srcva + 1 →
        PGROUNDDOWN a < p.sz ∧ m.Readable p.pagetable (PGROUNDDOWN a) := by
      intro a h1 h2
      rw [show a = srcva by omega]
      exact ⟨hs, .inl hnone⟩
    have hpc : pagesCovering srcva 1 = 1 := by
      unfold pagesCovering
      simp
    obtain ⟨dst', m', hin, -, -, hbytes, -⟩ :=
      copyin_run hsz 1 srcva pos dst m hW hpages (fun _ => by omega)
    refine ⟨dst', m', hin, ?_⟩
    have hb := hbytes 0 (by decide)
    rw [Nat.add_zero, Nat.add_zero, hview] at hb
    exact (Option.some.inj hb).symm
  · -- `walkaddr` finds no translation, and `copyinstr` does not fault the page in
    have hwa : walkaddr m p.pagetable (PGROUNDDOWN srcva) = 0 := by
      rw [walkaddr_eq hlt, hnone]
    rw [copyinstr, if_neg (by omega)]
    dsimp only
    rw [if_pos hwa]

/-- On the lazy first page of an empty table with three free pages, `copyin` reads a `NUL` and
`copyinstr` fails. -/
theorem copyinstr_lazy_page_fresh :
    (∃ dst' m', copyin ⟨0x87000000, PGSIZE⟩ roomyMachine 0x87000000 (fun _ => 1) 0 0 1 =
        .ok (0, dst', m') ∧ dst' 0 = 0) ∧
      copyinstr roomyMachine 0x87000000 (fun _ => 1) 0 0 128 = (-1, fun _ => 1) :=
  (copyinstr_lazy_page ⟨0x87000000, PGSIZE⟩ roomyMachine roomyMachine_wf (by decide) (fun _ => 1)
    0 0 128 (by decide) (by decide) (Machine.leaf_of_root_empty freshMachine_root_empty _)
    (by decide)).2

/-! ## `copyout` then `copyin` -/

/-- `copyout` then `copyin` over a range of writable or lazy pages below `sz`, with three free
pages for each page the range meets: `copyout` returns `0`, the process's view shows `src` on the
range and is unchanged off it, and `copyin` then returns `0` with exactly `src` in the buffer. A
range that meets a page at or above `MAXVA`, or a page mapped without `PTE_U` or `PTE_W`, makes
`copyout` return `-1`. -/
theorem copyout_copyin (p : Proc) (m : Machine) (hW : Wf m p.pagetable) (hsz : p.sz ≤ TRAPFRAME)
    (dstva len : Nat) (src dst : Nat → UInt8) :
    ((∀ a, dstva ≤ a → a < dstva + len →
        PGROUNDDOWN a < p.sz ∧ m.Writable p.pagetable (PGROUNDDOWN a)) →
      3 * pagesCovering dstva len ≤ m.free.length →
      ∃ m', copyout p m p.pagetable dstva src len = .ok (0, m') ∧
        (∀ a, a < MAXVA → m'.view p a =
          if dstva ≤ a ∧ a < dstva + len then some (src (a - dstva)) else m.view p a) ∧
        ∃ dst' m'', copyin p m' p.pagetable dst 0 dstva len = .ok (0, dst', m'') ∧
          (∀ j, j < len → dst' j = src j) ∧ ∀ i, len ≤ i → dst' i = dst i) ∧
    ((∃ a, dstva ≤ a ∧ a < dstva + len ∧ m.Unwritable p.pagetable (PGROUNDDOWN a)) →
      ∃ m', copyout p m p.pagetable dstva src len = .ok (-1, m')) := by
  have hmax := TRAPFRAME_le_MAXVA
  refine ⟨fun hpages hfree => ?_, copyout_unwritable (hsz.trans TRAPFRAME_le_MAXVA) len dstva src m hW⟩
  obtain ⟨m', hout, hW', hview', hpage', -⟩ := copyout_run hsz len dstva src m hW hpages hfree
  -- after `copyout` every page of the range is a user page, so `copyin` fills none
  have huser : ∀ a, dstva ≤ a → a < dstva + len →
      ∃ v, m'.leaf p.pagetable (PGROUNDDOWN a) = some v ∧ v &&& PTE_U ≠ 0 := by
    intro a h1 h2
    obtain ⟨v, hv, hU, -⟩ := hpage' a h1 h2
    exact ⟨v, (Machine.leaf_of_page (PGROUNDDOWN_page a)).trans hv, hU⟩
  have hread : ∀ a, dstva ≤ a → a < dstva + len →
      PGROUNDDOWN a < p.sz ∧ m'.Readable p.pagetable (PGROUNDDOWN a) :=
    fun a h1 h2 => ⟨(hpages a h1 h2).1, .inr (huser a h1 h2)⟩
  have hnolazy : (∃ a, dstva ≤ a ∧ a < dstva + len ∧ m'.leaf p.pagetable (PGROUNDDOWN a) = none) →
      3 * pagesCovering dstva len ≤ m'.free.length := by
    rintro ⟨a, h1, h2, hn⟩
    obtain ⟨v, hv, -⟩ := huser a h1 h2
    rw [hv] at hn
    cases hn
  obtain ⟨dst', m'', hin, -, -, hbytes, hkeep⟩ := copyin_run hsz len dstva 0 dst m' hW' hread hnolazy
  refine ⟨m', hout, hview', dst', m'', hin, fun j hj => ?_, fun i hi => hkeep i (by omega)⟩
  -- `copyin` reads the view, which `copyout` made `src` on the range
  have ha : dstva + j < MAXVA :=
    lt_MAXVA_of_PGROUNDDOWN (by have := (hpages (dstva + j) (by omega) (by omega)).1; omega)
  have hb := hbytes j hj
  rw [hview' _ ha, if_pos ⟨by omega, by omega⟩, Nat.add_sub_cancel_left, Nat.zero_add] at hb
  exact (Option.some.inj hb).symm

/-- Four bytes across the boundary of the lazy pages `0` and `1` of an empty table: with six free
pages `copyout` fills both, the view shows the bytes on either side of the boundary, and `copyin`
reads all four back and no more. -/
theorem copyout_copyin_two_pages :
    ∃ m', copyout ⟨0x87000000, 2 * PGSIZE⟩ ampleMachine 0x87000000 (PGSIZE - 2)
        (fun j => j.toUInt8 + 1) 4 = .ok (0, m') ∧
      m'.view ⟨0x87000000, 2 * PGSIZE⟩ (PGSIZE - 1) = some 2 ∧
      m'.view ⟨0x87000000, 2 * PGSIZE⟩ PGSIZE = some 3 ∧
      ∃ dst' m'', copyin ⟨0x87000000, 2 * PGSIZE⟩ m' 0x87000000 (fun _ => 0) 0 (PGSIZE - 2) 4 =
          .ok (0, dst', m'') ∧
        dst' 0 = 1 ∧ dst' 1 = 2 ∧ dst' 2 = 3 ∧ dst' 3 = 4 ∧ dst' 4 = 0 := by
  have hpages : ∀ a, PGSIZE - 2 ≤ a → a < PGSIZE - 2 + 4 →
      PGROUNDDOWN a < 2 * PGSIZE ∧ ampleMachine.Writable 0x87000000 (PGROUNDDOWN a) :=
    fun a _ h => ⟨by unfold PGROUNDDOWN PGSIZE at *; omega,
      .inl (Machine.leaf_of_root_empty freshMachine_root_empty _)⟩
  obtain ⟨m', hout, hview, dst', m'', hin, hdst, hkeep⟩ :=
    (copyout_copyin ⟨0x87000000, 2 * PGSIZE⟩ ampleMachine ampleMachine_wf (by decide) (PGSIZE - 2)
      4 (fun j => j.toUInt8 + 1) (fun _ => 0)).1 hpages (by decide)
  refine ⟨m', hout, ?_, ?_, dst', m'', hin, hdst 0 (by decide), hdst 1 (by decide),
    hdst 2 (by decide), hdst 3 (by decide), hkeep 4 le_rfl⟩
  · rw [hview _ (by decide), if_pos (by decide)]
    rfl
  · rw [hview _ (by decide), if_pos (by decide)]
    rfl

set_option maxRecDepth 20000 in
/-- Without free memory a lazy page makes `copyout` fail: `vmfault` cannot fill page `0` of a
process of one page, and a `copyout` of one byte there returns `-1`. -/
theorem copyout_lazy_page_no_memory :
    Wf { freshMachine with free := [] } 0x87000000 ∧
      ({ freshMachine with free := [] } : Machine).leaf 0x87000000 0 = none ∧
      (copyout ⟨0x87000000, PGSIZE⟩ { freshMachine with free := [] } 0x87000000 0 (fun _ => 7) 1).map
        Prod.fst = .ok (-1) := by
  refine ⟨Wf.of_root_empty (by decide) (by decide) freshMachine_root_empty (by decide) (by decide)
    (by decide) (by decide) (by decide), Machine.leaf_of_root_empty freshMachine_root_empty 0, ?_⟩
  rw [copyout]
  decide

end Xv6.Vm
