import Xv6.Vm.Basic
import Xv6.Lib.Loop

/-!
# Xv6.User.Umalloc — the allocator of `user/umalloc.c` and the `sbrk` it calls

Kernighan and Ritchie's allocator keeps a circular list of free blocks, each headed by a
`Header` holding the link `s.ptr` and the block's size `s.size` in units of headers. The
headers live in the process's memory, so the model keeps that memory as a map from addresses to
headers, with the static `base`, the pointer `freep` (`0` is null) and the break `p->sz`.

A load or store of a header outside mapped memory is a page fault, after which `usertrap`
kills the process (`Stop.fault`). The process grows by eager `sbrk` only, which maps every page
below `PGROUNDUP(sz)`, so that is the mapped memory. `sbrk(n)` is `sys_sbrk(n, SBRK_EAGER)`:
`growproc(n)` on the size, where whether `uvmalloc` finds the pages is the argument `grant`.
The loops of `free` and `malloc` walk a list in memory and carry a bound `fuel`.

The arithmetic is the source's: `nunits` is computed in `unsigned long` (`sizeof` is a
`size_t`) and stored in a `uint`; `morecore` passes the `unsigned long` `nu * sizeof(Header)`
to `sbrk(int)`, which keeps its low 32 bits as a signed number (`sbrkArg`). The first never
wraps (`nunits_toNat`); the second does, for requests of `2 ^ 31 - 31` bytes and more
(`sbrkArg_neg_iff`). Then the break does not grow as `morecore` assumes (`sbrk_neg`), and on a
fresh heap `malloc` either returns a block that lies past the break or faults
(`malloc_fresh_large`, `malloc_fresh_fault`).
-/

namespace Xv6.Umalloc

open Xv6.Vm Xv6.Lib

/-- `union header`: the next free block and this block's size in units of headers. -/
structure Header where
  ptr : Nat
  size : UInt32
  deriving DecidableEq, Repr

/-- `sizeof(Header)`: a pointer and a `uint`, padded to the alignment of `long`. -/
def sizeofHeader : Nat := 16

/-- What the allocator reads and writes of its process. -/
structure Heap where
  /-- `&base`, the static header in the data segment -/
  base : Nat
  /-- `freep`; `0` is null -/
  freep : Nat
  /-- the headers in the process's memory, by address -/
  mem : Nat → Header
  /-- `p->sz`, the break -/
  sz : Nat

/-- How a call ends other than by returning. -/
inductive Stop where
  /-- a header access at this address faulted: `usertrap` kills the process -/
  | fault (a : Nat)
  /-- the model's bound on a loop ran out -/
  | fuel
  deriving DecidableEq, Repr

namespace Heap

variable (h : Heap)

/-- A header at `a` lies in mapped memory. -/
def Mapped (a : Nat) : Prop := a + sizeofHeader ≤ PGROUNDUP h.sz

instance (a : Nat) : Decidable (h.Mapped a) := inferInstanceAs (Decidable (_ ≤ _))

/-- Read the header at `a`. -/
def get (a : Nat) : Except Stop Header :=
  if h.Mapped a then .ok (h.mem a) else .error (.fault a)

/-- The heap after `a->s.ptr = q`. -/
def writePtr (a q : Nat) : Heap :=
  { h with mem := Function.update h.mem a { h.mem a with ptr := q } }

/-- The heap after `a->s.size = n`. -/
def writeSize (a : Nat) (n : UInt32) : Heap :=
  { h with mem := Function.update h.mem a { h.mem a with size := n } }

/-- `a->s.ptr = q`. -/
def setPtr (a q : Nat) : Except Stop Heap :=
  if h.Mapped a then .ok (h.writePtr a q) else .error (.fault a)

/-- `a->s.size = n`. -/
def setSize (a : Nat) (n : UInt32) : Except Stop Heap :=
  if h.Mapped a then .ok (h.writeSize a n) else .error (.fault a)

section Fields

variable {h : Heap} {a b q : Nat} {n : UInt32}

@[simp] theorem writePtr_sz : (h.writePtr a q).sz = h.sz := rfl
@[simp] theorem writePtr_base : (h.writePtr a q).base = h.base := rfl
@[simp] theorem writePtr_freep : (h.writePtr a q).freep = h.freep := rfl
@[simp] theorem writeSize_sz : (h.writeSize a n).sz = h.sz := rfl
@[simp] theorem writeSize_base : (h.writeSize a n).base = h.base := rfl
@[simp] theorem writeSize_freep : (h.writeSize a n).freep = h.freep := rfl

@[simp] theorem writePtr_mem_self : (h.writePtr a q).mem a = { h.mem a with ptr := q } := by
  simp [writePtr]

@[simp] theorem writePtr_mem_of_ne (hb : b ≠ a) : (h.writePtr a q).mem b = h.mem b := by
  simp [writePtr, Function.update_of_ne hb]

@[simp] theorem writeSize_mem_self : (h.writeSize a n).mem a = { h.mem a with size := n } := by
  simp [writeSize]

@[simp] theorem writeSize_mem_of_ne (hb : b ≠ a) : (h.writeSize a n).mem b = h.mem b := by
  simp [writeSize, Function.update_of_ne hb]

/-- Mapped memory is fixed by the break alone. -/
@[simp] theorem mapped_iff : h.Mapped a ↔ a + sizeofHeader ≤ PGROUNDUP h.sz := Iff.rfl

theorem get_of_mapped (ha : h.Mapped a) : h.get a = .ok (h.mem a) := if_pos ha

theorem setPtr_of_mapped (ha : h.Mapped a) : h.setPtr a q = .ok (h.writePtr a q) := if_pos ha

theorem setSize_of_mapped (ha : h.Mapped a) : h.setSize a n = .ok (h.writeSize a n) := if_pos ha

theorem setSize_of_not_mapped (ha : ¬ h.Mapped a) : h.setSize a n = .error (.fault a) := if_neg ha

end Fields

end Heap

/-! ## `sbrk` -/

/-- `growproc(n)` on the size alone: `none` is its `-1`. For a negative `n`, `sz + n` is the
`uint64` sum, and `uvmdealloc` keeps `sz` when that sum does not lie below it. -/
def growproc (grant : Bool) (sz : Nat) (n : Int32) : Option Nat :=
  if 0 < n then
    if TRAPFRAME < sz + n.toInt.toNat then none
    else if grant then some (sz + n.toInt.toNat) else none
  else if n < 0 then
    let newsz := ((sz + n.toInt) % 2 ^ 64).toNat
    some (if newsz ≥ sz then sz else newsz)
  else some sz

/-- `sbrk(n)` of `user/ulib.c`, that is `sys_sbrk(n, SBRK_EAGER)`: the old break and the new
size, or `none` for `SBRK_ERROR`. -/
def sbrk (grant : Bool) (sz : Nat) (n : Int32) : Option (Nat × Nat) :=
  (growproc grant sz n).map fun sz' => (sz, sz')

/-! ## `free`, `morecore` and `malloc` -/

/-- The search loop of `free`: from `p` along the list, the block after which `bp` goes. -/
def freeSearch (h : Heap) (bp : Nat) : Nat → Nat → Except Stop Nat
  | 0, _ => .error .fuel
  | fuel + 1, p => do
    let x ← h.get p
    if bp > p ∧ bp < x.ptr then pure p
    -- the wrap point: `bp` lies beyond the highest or below the lowest free block
    else if p ≥ x.ptr ∧ (bp > p ∨ bp < x.ptr) then pure p
    else freeSearch h bp fuel x.ptr

/-- The first `if` of `free`: `bp` takes over `p`'s successor, and absorbs it when the two
touch. Each field is read when the source reads it. -/
def freeJoinNext (h : Heap) (p bp : Nat) : Except Stop Heap := do
  let b ← h.get bp
  let x ← h.get p
  if bp + b.size.toNat * sizeofHeader = x.ptr then do
    let nx ← h.get x.ptr
    let h ← h.setSize bp (b.size + nx.size)
    let x ← h.get p
    let nx ← h.get x.ptr
    h.setPtr bp nx.ptr
  else h.setPtr bp x.ptr

/-- The second `if` of `free`: `p` points at `bp`, or absorbs it when the two touch. -/
def freeJoinPrev (h : Heap) (p bp : Nat) : Except Stop Heap := do
  let x ← h.get p
  if p + x.size.toNat * sizeofHeader = bp then do
    let b ← h.get bp
    let h ← h.setSize p (x.size + b.size)
    let b ← h.get bp
    h.setPtr p b.ptr
  else h.setPtr p bp

/-- `free(ap)`: the block headed at `ap - sizeof(Header)` goes into the list after the block
`p` that the search finds, and `freep` becomes `p`. -/
def free (fuel : Nat) (h : Heap) (ap : Nat) : Except Stop Heap := do
  let bp := ap - sizeofHeader
  let p ← freeSearch h bp fuel h.freep
  let h ← freeJoinNext h p bp
  let h ← freeJoinPrev h p bp
  pure { h with freep := p }

/-- `(int)(nu * sizeof(Header))`: the product is an `unsigned long`, and `sbrk` takes an `int`,
its low 32 bits read as a signed number. -/
def sbrkArg (nu : UInt32) : Int32 := (nu.toUInt64 * 16).toUInt32.toInt32

/-- `morecore(nu)`: the new block's address becomes `freep` after `free` inserts it; `0` when
`sbrk` fails. -/
def morecore (fuel : Nat) (grant : Bool) (h : Heap) (nu : UInt32) : Except Stop (Nat × Heap) :=
  let nu := if nu < 4096 then 4096 else nu
  match sbrk grant h.sz (sbrkArg nu) with
  | none => .ok (0, h)
  | some (p, sz) => do
    let h ← { h with sz }.setSize p nu
    let h ← free fuel h (p + sizeofHeader)
    pure (h.freep, h)

/-- `nunits` of `malloc`: `(nbytes + sizeof(Header) - 1)/sizeof(Header) + 1` in
`unsigned long`, stored in a `uint`. -/
def nunits (nbytes : UInt32) : UInt32 := ((nbytes.toUInt64 + 16 - 1) / 16 + 1).toUInt32

/-- The `for` loop of `malloc` at `prevp` and `p`: take the first block of at least `n` units,
whole if it fits exactly and otherwise from its tail; at `freep` again, ask `morecore`. -/
def mallocLoop (grant : Bool) (n : UInt32) : Nat → Heap → Nat → Nat → Except Stop (Nat × Heap)
  | 0, _, _, _ => .error .fuel
  | fuel + 1, h, prevp, p => do
    let x ← h.get p
    if n ≤ x.size then
      if x.size = n then
        let h ← h.setPtr prevp x.ptr
        pure (p + sizeofHeader, { h with freep := prevp })
      else
        let h ← h.setSize p (x.size - n)
        let q := p + (x.size - n).toNat * sizeofHeader
        let h ← h.setSize q n
        pure (q + sizeofHeader, { h with freep := prevp })
    else if p = h.freep then
      let (q, h) ← morecore fuel grant h n
      if q = 0 then pure (0, h)
      else
        let x ← h.get q
        mallocLoop grant n fuel h q x.ptr
    else mallocLoop grant n fuel h p x.ptr

/-- `malloc(nbytes)`: the address returned, `0` for none. The first call makes `base` the
one-element list. -/
def malloc (fuel : Nat) (grant : Bool) (h : Heap) (nbytes : UInt32) :
    Except Stop (Nat × Heap) := do
  let n := nunits nbytes
  let h ← if h.freep = 0 then do
      let h ← h.setPtr h.base h.base
      let h := { h with freep := h.base }
      h.setSize h.base 0
    else pure h
  let x ← h.get h.freep
  mallocLoop grant n fuel h h.freep x.ptr

/-! ## The arithmetic -/

/-- The unit count never wraps: it is the number of headers that hold `nbytes`, plus one for the
header itself. -/
theorem nunits_toNat (nbytes : UInt32) : (nunits nbytes).toNat = (nbytes.toNat + 15) / 16 + 1 := by
  have hlt := nbytes.toNat_lt
  simp only [nunits, UInt64.toNat_toUInt32, UInt64.toNat_add, UInt64.toNat_div, UInt64.toNat_sub,
    UInt32.toNat_toUInt64, UInt64.toNat_ofNat, Nat.reducePow, Nat.reduceMod]
  omega

/-- The `int` that `sbrk` receives: the product modulo `2 ^ 32`, less `2 ^ 32` when its top bit
is set. -/
theorem toInt_sbrkArg (nu : UInt32) :
    (sbrkArg nu).toInt = if nu.toNat * 16 % 2 ^ 32 < 2 ^ 31 then ((nu.toNat * 16 % 2 ^ 32 : Nat) : Int)
      else ((nu.toNat * 16 % 2 ^ 32 : Nat) : Int) - 2 ^ 32 := by
  have hlt := nu.toNat_lt
  rw [sbrkArg, ← Int32.toInt_toBitVec, BitVec.toInt_eq_toNat_cond]
  have hbv : (nu.toUInt64 * 16).toUInt32.toInt32.toBitVec = (nu.toUInt64 * 16).toUInt32.toBitVec :=
    rfl
  rw [hbv, UInt32.toNat_toBitVec, UInt64.toNat_toUInt32, UInt64.toNat_mul, UInt32.toNat_toUInt64,
    UInt64.toNat_ofNat]
  have hmod : nu.toNat * 16 % 2 ^ 64 % 2 ^ 32 = nu.toNat * 16 % 2 ^ 32 := by omega
  rw [hmod]
  split_ifs <;> omega

/-- `morecore`'s request turns negative exactly for the requests of `2 ^ 31 - 31` to
`2 ^ 32 - 32` bytes: their unit counts, `2 ^ 27` to `2 ^ 28 - 1`, pass `4096` unchanged, and
sixteen times them has the top bit of an `int` set. -/
theorem sbrkArg_neg_iff (nbytes : UInt32) :
    sbrkArg (nunits nbytes) < 0 ↔ 2 ^ 31 - 31 ≤ nbytes.toNat ∧ nbytes.toNat ≤ 2 ^ 32 - 32 := by
  have hlt := nbytes.toNat_lt
  rw [Int32.lt_iff_toInt_lt, toInt_sbrkArg, nunits_toNat]
  split_ifs with h <;> simp only [Int32.toInt_zero] <;> omega

/-- A positive request that stays below `TRAPFRAME` and finds the pages grows the break by `n`. -/
theorem sbrk_pos {sz : Nat} {n : Int32} (hn : 0 < n) (htop : sz + n.toInt.toNat ≤ TRAPFRAME) :
    sbrk true sz n = some (sz, sz + n.toInt.toNat) := by
  simp only [sbrk, growproc, hn, if_true, Nat.not_lt.mpr htop, if_false, Option.map_some]

/-- A negative request lowers the break by `-n` when the break is at least that. Otherwise
`sz + n` wraps around to above `sz` and the break stays. Either way `sbrk` succeeds and returns
the old break. -/
theorem sbrk_neg (grant : Bool) {sz : Nat} {n : Int32} (hn : n < 0) (hsz : sz < 2 ^ 63) :
    sbrk grant sz n = some (sz, if (-n.toInt).toNat ≤ sz then sz - (-n.toInt).toNat else sz) := by
  have hlt : n.toInt < 0 := Int32.lt_iff_toInt_lt.mp hn
  have hge := n.minValue_le_toInt
  have hnpos : ¬ 0 < n := fun h => absurd (Int32.lt_iff_toInt_lt.mp h) (by simp; omega)
  simp only [Int32.toInt_minValue] at hge
  simp only [sbrk, growproc, hnpos, hn, if_false, if_true, Option.map_some]
  congr 2
  split_ifs <;> omega

/-! ## The first calls on a fresh heap -/

theorem freeJoinNext_apart {h : Heap} {p bp : Nat} (hp : h.Mapped p) (hb : h.Mapped bp)
    (happ : bp + (h.mem bp).size.toNat * sizeofHeader ≠ (h.mem p).ptr) :
    freeJoinNext h p bp = h.setPtr bp (h.mem p).ptr := by
  simp only [freeJoinNext, Heap.get_of_mapped hp, Heap.get_of_mapped hb, ok_bind, if_neg happ]

theorem freeJoinPrev_apart {h : Heap} {p bp : Nat} (hp : h.Mapped p)
    (happ : p + (h.mem p).size.toNat * sizeofHeader ≠ bp) :
    freeJoinPrev h p bp = h.setPtr p bp := by
  simp only [freeJoinPrev, Heap.get_of_mapped hp, ok_bind, if_neg happ]

/-- The first `free` into the list that holds `base` alone links the block after `base`:
`base` is the wrap point, has size `0` and lies below the block, so nothing merges. -/
theorem free_first (fuel : Nat) (h : Heap) (bp : Nat) (hfreep : h.freep = h.base)
    (hb : h.mem h.base = ⟨h.base, 0⟩) (hlt : h.base < bp) (hbm : h.Mapped h.base)
    (hpm : h.Mapped bp) :
    free (fuel + 1) h (bp + sizeofHeader) =
      .ok { (h.writePtr bp h.base).writePtr h.base bp with freep := h.base } := by
  have hne : h.base ≠ bp := by omega
  have hsearch : freeSearch h bp (fuel + 1) h.freep = .ok h.base := by
    rw [hfreep, freeSearch, Heap.get_of_mapped hbm, hb, ok_bind]
    simp [hlt]
    rfl
  have hnext : bp + (h.mem bp).size.toNat * sizeofHeader ≠ (h.mem h.base).ptr := by
    rw [hb]
    dsimp only
    omega
  have hprev : h.base + ((h.writePtr bp h.base).mem h.base).size.toNat * sizeofHeader ≠ bp := by
    rw [Heap.writePtr_mem_of_ne hne, hb]
    simp only [UInt32.toNat_zero, Nat.zero_mul, Nat.add_zero]
    exact hne
  rw [free, Nat.add_sub_cancel, hsearch, ok_bind, freeJoinNext_apart hbm hpm hnext, hb,
    Heap.setPtr_of_mapped hpm, ok_bind, freeJoinPrev_apart (by simpa using hbm) hprev,
    Heap.setPtr_of_mapped (by simpa using hbm), ok_bind]
  rfl

/-- On the one-block list, `morecore` links the block `sbrk` returned after `base`, with the
size `nu` it asked for, whatever the size `sz'` that `sbrk` left. -/
theorem morecore_first (fuel : Nat) (grant : Bool) (h : Heap) {nu : UInt32} {sz' : Nat}
    (hnu : 4096 ≤ nu) (hsbrk : sbrk grant h.sz (sbrkArg nu) = some (h.sz, sz'))
    (hfreep : h.freep = h.base) (hb : h.mem h.base = ⟨h.base, 0⟩) (hlt : h.base < h.sz)
    (hmap : h.sz + sizeofHeader ≤ PGROUNDUP sz') :
    morecore (fuel + 1) grant h nu = .ok (h.base,
      { (({ h with sz := sz' }.writeSize h.sz nu).writePtr h.sz h.base).writePtr h.base h.sz with
        freep := h.base }) := by
  have hne : h.base ≠ h.sz := by omega
  have hnu' : ¬ nu < 4096 := by simpa using hnu
  have hpm : ({ h with sz := sz' } : Heap).Mapped h.sz := hmap
  have hbm : ({ h with sz := sz' } : Heap).Mapped h.base := by
    show h.base + sizeofHeader ≤ PGROUNDUP sz'
    omega
  have hfree := free_first fuel (({ h with sz := sz' } : Heap).writeSize h.sz nu) h.sz
    (by simpa using hfreep) (by simpa [Heap.writeSize_mem_of_ne hne] using hb) hlt
    (by simpa using hbm) (by simpa using hpm)
  simp only [morecore, hnu', if_false, hsbrk]
  rw [Heap.setSize_of_mapped hpm, ok_bind, hfree, ok_bind]
  rfl

/-- The one-block list that `malloc` makes of `base` on its first call. -/
theorem malloc_fresh_eq (fuel : Nat) (grant : Bool) (h : Heap) (nbytes : UInt32)
    (hfresh : h.freep = 0) (hbm : h.Mapped h.base) :
    malloc fuel grant h nbytes = mallocLoop grant (nunits nbytes) fuel
      ({ h.writePtr h.base h.base with freep := h.base }.writeSize h.base 0) h.base h.base := by
  simp only [malloc, hfresh, if_true]
  rw [Heap.setPtr_of_mapped hbm, ok_bind, Heap.setSize_of_mapped (by simpa using hbm), ok_bind,
    Heap.get_of_mapped (by simpa using hbm), ok_bind]
  simp

/-- With `morecore`'s floor of `4096` units, the request is never `0` units. -/
theorem not_le_zero_of_large {n : UInt32} (hnu : 4096 ≤ n) : ¬ n ≤ 0 := by
  rw [UInt32.le_iff_toNat_le] at hnu ⊢
  simp only [UInt32.reduceToNat] at hnu ⊢
  omega

/-- `morecore` faults storing the new block's size when the break `sbrk` leaves does not map
the header at the old break. -/
theorem morecore_fault (fuel : Nat) (grant : Bool) (h : Heap) {nu : UInt32} {sz' : Nat}
    (hnu : 4096 ≤ nu) (hsbrk : sbrk grant h.sz (sbrkArg nu) = some (h.sz, sz'))
    (hmap : PGROUNDUP sz' < h.sz + sizeofHeader) :
    morecore fuel grant h nu = .error (.fault h.sz) := by
  have hnu' : ¬ nu < 4096 := by simpa using hnu
  simp only [morecore, hnu', if_false, hsbrk]
  rw [Heap.setSize_of_not_mapped (by simpa using hmap), error_bind]

section Turn

variable {grant : Bool} {n : UInt32} {fuel : Nat} {h : Heap} {prevp p : Nat}

/-- A turn at a block of exactly `n` units unlinks it whole. -/
theorem mallocLoop_exact (hp : h.Mapped p) (hfit : (h.mem p).size = n) :
    mallocLoop grant n (fuel + 1) h prevp p = (h.setPtr prevp (h.mem p).ptr).map
      fun h' => (p + sizeofHeader, { h' with freep := prevp }) := by
  rw [mallocLoop, Heap.get_of_mapped hp, ok_bind]
  simp only [hfit, if_pos (UInt32.le_iff_toNat_le.mpr (Nat.le_refl _)), if_true]
  cases h.setPtr prevp (h.mem p).ptr <;> rfl

/-- A turn back at `freep` with no block large enough asks `morecore`, and the loop goes on
from the block it returns. -/
theorem mallocLoop_grow (hp : h.Mapped p) (hsmall : ¬ n ≤ (h.mem p).size) (hfp : p = h.freep) :
    mallocLoop grant n (fuel + 1) h prevp p = (do
      let (q, h) ← morecore fuel grant h n
      if q = 0 then pure (0, h)
      else
        let x ← h.get q
        mallocLoop grant n fuel h q x.ptr) := by
  rw [mallocLoop, Heap.get_of_mapped hp, ok_bind]
  simp only [if_neg hsmall, if_pos hfp]

end Turn

/-- On a fresh heap, a request of at least `4096` units is served whole by the block that
`morecore` gets, headed at the old break, whatever `sbrk` did to the break. -/
theorem malloc_fresh_large (fuel : Nat) (grant : Bool) (h : Heap) (nbytes : UInt32) {sz' : Nat}
    (hfresh : h.freep = 0) (hbase : 0 < h.base) (hlt : h.base < h.sz) (hbm : h.Mapped h.base)
    (hnu : 4096 ≤ nunits nbytes)
    (hsbrk : sbrk grant h.sz (sbrkArg (nunits nbytes)) = some (h.sz, sz'))
    (hmap : h.sz + sizeofHeader ≤ PGROUNDUP sz') :
    ∃ h', malloc (fuel + 2) grant h nbytes = .ok (h.sz + sizeofHeader, h') ∧ h'.sz = sz' := by
  set n := nunits nbytes
  set h₁ := ({ h.writePtr h.base h.base with freep := h.base } : Heap).writeSize h.base 0
  have hne : h.base ≠ h.sz := by omega
  have hb₁ : h₁.mem h.base = ⟨h.base, 0⟩ := by simp [h₁]
  have hmore := morecore_first fuel grant h₁ hnu (by simpa [h₁] using hsbrk)
    (by simp [h₁]) hb₁ (by simpa [h₁] using hlt) (by simpa [h₁] using hmap)
  set h₂ := ({ (({ h₁ with sz := sz' }.writeSize h₁.sz n).writePtr h₁.sz h₁.base).writePtr
    h₁.base h₁.sz with freep := h₁.base } : Heap)
  have hb₂ : h₂.mem h.base = ⟨h.sz, 0⟩ := by
    simp [h₂, h₁, Heap.writePtr_mem_of_ne hne, Heap.writeSize_mem_of_ne hne]
  have hp₂ : h₂.mem h.sz = ⟨h.base, n⟩ := by
    simp [h₂, h₁, Heap.writePtr_mem_of_ne hne.symm]
  have hm₂ : h₂.Mapped h.base := by simp [h₂, h₁]; omega
  have hs₂ : h₂.Mapped h.sz := by simpa [h₂, h₁] using hmap
  have hbase₁ : h₁.base = h.base := by simp [h₁]
  -- the first turn finds only `base`, of size `0`, and asks `morecore`
  rw [malloc_fresh_eq _ _ _ _ hfresh hbm, mallocLoop_grow (by simpa [h₁] using hbm)
    (by rw [hb₁]; exact not_le_zero_of_large hnu) (by simp), hmore, ok_bind]
  dsimp only
  rw [hbase₁, if_neg (by omega), Heap.get_of_mapped hm₂, hb₂, ok_bind]
  -- the second turn finds the new block, of exactly `n` units, and unlinks it whole
  rw [mallocLoop_exact hs₂ (by rw [hp₂]), hp₂, Heap.setPtr_of_mapped hm₂]
  exact ⟨_, rfl, by simp [h₂, h₁]⟩

/-- On a fresh heap, when the break `sbrk` leaves does not map the header at the old break,
`malloc` does not return: its `morecore` faults and the process is killed. -/
theorem malloc_fresh_fault (fuel : Nat) (grant : Bool) (h : Heap) (nbytes : UInt32) {sz' : Nat}
    (hfresh : h.freep = 0) (hbm : h.Mapped h.base) (hnu : 4096 ≤ nunits nbytes)
    (hsbrk : sbrk grant h.sz (sbrkArg (nunits nbytes)) = some (h.sz, sz'))
    (hmap : PGROUNDUP sz' < h.sz + sizeofHeader) :
    malloc (fuel + 1) grant h nbytes = .error (.fault h.sz) := by
  set h₁ := ({ h.writePtr h.base h.base with freep := h.base } : Heap).writeSize h.base 0
  have hb₁ : h₁.mem h.base = ⟨h.base, 0⟩ := by simp [h₁]
  rw [malloc_fresh_eq _ _ _ _ hfresh hbm, mallocLoop_grow (by simpa [h₁] using hbm)
    (by rw [hb₁]; exact not_le_zero_of_large hnu) (by simp),
    morecore_fault fuel grant h₁ hnu (by simpa [h₁] using hsbrk) (by simpa [h₁] using hmap),
    error_bind]
  rfl

/-- A process just after `exec`: the break at `0x5000`, on a page boundary, and `base` in its
data at `0x1000`; `malloc` has not been called yet. -/
def execHeap : Heap := { base := 0x1000, freep := 0, mem := fun _ => ⟨0, 0⟩, sz := 0x5000 }

/-- `malloc(0xffffffff)` asks `sbrk` for `16` bytes, as `(2 ^ 28 + 1) * 16` wraps to `16`, and
returns the address of the new break itself: none of the block's bytes is in the process's
memory. `malloc(0x80000000)` passes `sbrk` the negative `-(2 ^ 31 - 16)`, which leaves a break
below `2 ^ 31` as it is, and the store of the block's size at the old break faults: the process
is killed instead of getting `0`. Where the break lies above `2 ^ 31`, as after a lazy `sbrk`,
the same request lowers it by `2 ^ 31 - 16`. -/
theorem malloc_huge_request :
    (∃ h, malloc 2 true execHeap 0xFFFFFFFF = .ok (execHeap.sz + sizeofHeader, h) ∧
      h.sz = execHeap.sz + sizeofHeader) ∧
    malloc 2 true execHeap 0x80000000 = .error (.fault execHeap.sz) ∧
    sbrk true (2 ^ 32) (sbrkArg (nunits 0x80000000)) = some (2 ^ 32, 2 ^ 31 + 16) := by
  refine ⟨?_, ?_, by decide⟩
  · exact malloc_fresh_large 0 true execHeap 0xFFFFFFFF rfl (by decide) (by decide) (by decide)
      (by decide) (by decide) (by decide)
  · exact malloc_fresh_fault 1 true execHeap 0x80000000 rfl (by decide) (by decide)
      (by decide : sbrk true execHeap.sz (sbrkArg (nunits 0x80000000)) = some (execHeap.sz, 0x5000))
      (by decide)

end Xv6.Umalloc
