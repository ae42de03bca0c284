import Xv6.Fs.Basic

/-!
# Xv6.Vm.Basic — the paging macros of `riscv.h` and the layout of `memlayout.h`

`PGSIZE`, `MAXVA` and `PGROUNDDOWN` were declared with the file layer, whose `copyin` and
`copyout` first needed them; this module adds the rest of what user memory is laid out by.
Addresses are `Nat`: every virtual address the code walks lies below `MAXVA = 2 ^ 38`, so the
`uint64` arithmetic on them never wraps. A page-table entry is the `Nat` its eight bytes hold;
`PTE2PA` shifts left in `uint64` and keeps that wrap.

An entry made by `mappages`, `PA2PTE(pa) | perm | PTE_V`, is the page number of `pa` above the
ten flag bits when `perm` fits in them (`leafPte_eq`), so it gives back `pa` and `perm | PTE_V`
when `pa` is page-aligned (`PTE2PA_leafPte`, `PTE_FLAGS_leafPte`).
-/

namespace Xv6.Vm

export Xv6.Fs (PGSIZE MAXVA PGROUNDDOWN)

/-- `PGROUNDUP` of `riscv.h`. -/
def PGROUNDUP (sz : Nat) : Nat := (sz + PGSIZE - 1) / PGSIZE * PGSIZE

/-- `TRAMPOLINE` of `memlayout.h`: the highest page of the address space. -/
def TRAMPOLINE : Nat := MAXVA - PGSIZE

/-- `TRAPFRAME` of `memlayout.h`: the page below the trampoline, the top of user memory. -/
def TRAPFRAME : Nat := TRAMPOLINE - PGSIZE

theorem le_PGROUNDUP (sz : Nat) : sz ≤ PGROUNDUP sz := by
  unfold PGROUNDUP PGSIZE
  omega

/-- A page-aligned size is its own rounding. -/
theorem PGROUNDUP_of_aligned {sz : Nat} (h : sz % PGSIZE = 0) : PGROUNDUP sz = sz := by
  unfold PGROUNDUP
  unfold PGSIZE at h ⊢
  omega

/-! ## Page-table entries -/

/-- `PGSHIFT`: bits of offset within a page. -/
def PGSHIFT : Nat := 12

/-- `PTE_V`: valid. -/
def PTE_V : Nat := 1
/-- `PTE_R`. -/
def PTE_R : Nat := 2
/-- `PTE_W`. -/
def PTE_W : Nat := 4
/-- `PTE_X`. -/
def PTE_X : Nat := 8
/-- `PTE_U`: user can access. -/
def PTE_U : Nat := 16

/-- `PA2PTE`: a physical address shifted to the place of an entry's page number. -/
def PA2PTE (pa : Nat) : Nat := pa >>> 12 <<< 10

/-- `PTE2PA`: the physical address an entry names, shifted left in `uint64`. -/
def PTE2PA (pte : Nat) : Nat := (pte >>> 10 <<< 12) % 2 ^ 64

/-- `PTE_FLAGS`: the ten flag bits. -/
def PTE_FLAGS (pte : Nat) : Nat := pte &&& 0x3FF

/-- `PXMASK`: nine bits of table index. -/
def PXMASK : Nat := 0x1FF

/-- `PXSHIFT(level)`. -/
def PXSHIFT (level : Nat) : Nat := PGSHIFT + 9 * level

/-- `PX(level, va)`: the index of `va`'s entry in its level-`level` table. -/
def PX (level va : Nat) : Nat := va >>> PXSHIFT level &&& PXMASK

theorem PX_eq (level va : Nat) : PX level va = va / 2 ^ (12 + 9 * level) % 512 := by
  rw [PX, PXMASK, PXSHIFT, PGSHIFT, Nat.shiftRight_eq_div_pow,
    show (0x1FF : Nat) = 2 ^ 9 - 1 by rfl, Nat.and_two_pow_sub_one_eq_mod]

theorem PX_lt (level va : Nat) : PX level va < 512 := by
  rw [PX_eq]
  exact Nat.mod_lt _ (by decide)

/-- The flag test `pte & f` of a one-bit flag `f = 2 ^ k`. -/
theorem and_flag_ne_zero_iff (pte k : Nat) : pte &&& 2 ^ k ≠ 0 ↔ pte.testBit k = true := by
  rw [Nat.and_two_pow]
  cases pte.testBit k <;> simp

/-- The entry `mappages` writes: `PA2PTE(pa) | perm | PTE_V`. -/
def leafPte (pa perm : Nat) : Nat := PA2PTE pa ||| perm ||| PTE_V

/-- With `perm` inside the flag bits, the entry is `pa`'s page number above the flags. -/
theorem leafPte_eq (pa : Nat) {perm : Nat} (hperm : perm < 2 ^ 10) :
    leafPte pa perm = pa / PGSIZE * 2 ^ 10 + (perm ||| PTE_V) := by
  have hflags : perm ||| PTE_V < 2 ^ 10 := Nat.or_lt_two_pow hperm (by decide)
  rw [leafPte, Nat.or_assoc, PA2PTE, Nat.shiftRight_eq_div_pow,
    ← Nat.shiftLeft_add_eq_or_of_lt hflags, Nat.shiftLeft_eq]
  rfl

theorem leafPte_lt {pa perm : Nat} (hpa : pa < 2 ^ 64) (hperm : perm < 2 ^ 10) :
    leafPte pa perm < 2 ^ 64 := by
  have hflags : perm ||| PTE_V < 2 ^ 10 := Nat.or_lt_two_pow hperm (by decide)
  rw [leafPte_eq pa hperm]
  unfold PGSIZE
  omega

/-- A page-aligned `pa` comes back out of the entry. -/
theorem PTE2PA_leafPte {pa perm : Nat} (halign : pa % PGSIZE = 0) (hpa : pa < 2 ^ 64)
    (hperm : perm < 2 ^ 10) : PTE2PA (leafPte pa perm) = pa := by
  have hflags : perm ||| PTE_V < 2 ^ 10 := Nat.or_lt_two_pow hperm (by decide)
  rw [PTE2PA, leafPte_eq pa hperm, Nat.shiftRight_eq_div_pow, Nat.shiftLeft_eq]
  unfold PGSIZE at halign ⊢
  omega

theorem PTE_FLAGS_leafPte (pa : Nat) {perm : Nat} (hperm : perm < 2 ^ 10) :
    PTE_FLAGS (leafPte pa perm) = perm ||| PTE_V := by
  have hflags : perm ||| PTE_V < 2 ^ 10 := Nat.or_lt_two_pow hperm (by decide)
  rw [PTE_FLAGS, leafPte_eq pa hperm, show (0x3FF : Nat) = 2 ^ 10 - 1 by rfl,
    Nat.and_two_pow_sub_one_eq_mod]
  omega

/-- Every entry `mappages` writes is valid. -/
theorem leafPte_valid (pa perm : Nat) : leafPte pa perm &&& PTE_V ≠ 0 := by
  rw [leafPte, show PTE_V = 2 ^ 0 by rfl, and_flag_ne_zero_iff, Nat.testBit_or]
  simp

end Xv6.Vm
