import Xv6.Lib.Bytes

/-!
# Xv6.Fs.Basic — the block layer of `kernel/fs.c`

The disk is a function from block numbers to blocks of bytes, as the buffer cache holds them:
`bread` and `brelse` do nothing here, and neither does `log_write`, whose blocks reach the disk
at `end_op`. The free bitmap and the indirect blocks are bytes of that disk, read and written
through `Xv6.Lib.Bytes` as `balloc`, `bfree` and `bmap` do. The inodes are `ip` as the caller
that holds `ip->lock` has it; `iupdate` copies it to its dinode and is not modelled.

Each function is one call: they run under `ip->lock` inside a transaction, so no other call
touches the same inode or block meanwhile. A user address range is read by `copyin` and written
by `copyout` page by page, as `kernel/vm.c` does; whether a page can be found or faulted in is
`Mem.mapped`.

Only `type`, `nlink`, `size` and `addrs` of an inode are kept, and the superblock's `size`,
`nblocks`, `ninodes` and `bmapstart`: nothing below reads the others.
-/

namespace Xv6.Fs

open Xv6.Lib

/-- `BSIZE` of `fs.h`: block size. -/
def BSIZE : Nat := 1024

/-- `NDIRECT` of `fs.h`. -/
def NDIRECT : Nat := 12

/-- `addrs` has `NDIRECT + 1` entries: the direct blocks and the indirect one. -/
instance (priority := 1100) neZero_addrs : NeZero (NDIRECT + 1) := ⟨by decide⟩

/-- `NINDIRECT` of `fs.h`: `BSIZE / sizeof(uint)`. -/
def NINDIRECT : Nat := BSIZE / 4

/-- `MAXFILE` of `fs.h`. -/
def MAXFILE : Nat := NDIRECT + NINDIRECT

/-- `BPB` of `fs.h`: bitmap bits per block. -/
def BPB : Nat := BSIZE * 8

/-- `PGSIZE` of `riscv.h`. -/
def PGSIZE : Nat := 4096

/-- `MAXVA` of `riscv.h`: `1L << (9 + 9 + 9 + 12 - 1)`. -/
def MAXVA : Nat := 2 ^ 38

/-- `PGROUNDDOWN` of `riscv.h`. -/
def PGROUNDDOWN (a : Nat) : Nat := a / PGSIZE * PGSIZE

/-- The fields of `struct superblock` the block layer reads. -/
structure Superblock where
  size : Nat
  nblocks : Nat
  ninodes : Nat
  bmapstart : Nat

/-- The first data block: `mkfs` puts `nblocks` data blocks at the end of the image. -/
def Superblock.dataStart (sb : Superblock) : Nat := sb.size - sb.nblocks

/-- `BBLOCK` of `fs.h`: the bitmap block holding block `b`'s bit. -/
def BBLOCK (b : Nat) (sb : Superblock) : Nat := b / BPB + sb.bmapstart

/-- The fields of `struct inode` (and `struct dinode`) the block layer reads. -/
structure Dinode where
  type : Int16
  nlink : Int16
  size : Nat
  addrs : Fin (NDIRECT + 1) → Nat

/-- The disk as the cache holds it, and the inodes. -/
structure State where
  sb : Superblock
  disk : Nat → Nat → UInt8
  inode : Nat → Dinode

/-- A process's memory as `copyin` and `copyout` see it. -/
structure Mem where
  /-- Whether `walkaddr` finds the user page at this page-aligned address, or `vmfault` maps it. -/
  mapped : Nat → Bool
  /-- Whether that page's PTE has `PTE_W`. -/
  writable : Nat → Bool
  user : Nat → UInt8
  kernel : Nat → UInt8

/-! ## Writing the state -/

section Write

variable (s : State)

def State.setBlock (b : Nat) (blk : Nat → UInt8) : State :=
  { s with disk := Function.update s.disk b blk }

/-- `bp->data[i] = v` for the buffer of block `b`. -/
def State.setByte (b i : Nat) (v : UInt8) : State :=
  s.setBlock b (Function.update (s.disk b) i v)

/-- `a[j] = x` for `a = (uint*)bp->data`, the buffer of block `b`. -/
def State.writeWord (b j x : Nat) : State :=
  s.setBlock b (setWord (s.disk b) j x)

def State.setInode (inum : Nat) (d : Dinode) : State :=
  { s with inode := Function.update s.inode inum d }

/-- `ip->addrs[i] = a`. -/
def State.setAddr (inum : Nat) (i : Fin (NDIRECT + 1)) (a : Nat) : State :=
  s.setInode inum { s.inode inum with addrs := Function.update (s.inode inum).addrs i a }

/-- `ip->size = sz`. -/
def State.setSize (inum sz : Nat) : State :=
  s.setInode inum { s.inode inum with size := sz }

@[simp] theorem State.setBlock_sb (b : Nat) (blk : Nat → UInt8) : (s.setBlock b blk).sb = s.sb :=
  rfl
@[simp] theorem State.setBlock_inode (b : Nat) (blk : Nat → UInt8) :
    (s.setBlock b blk).inode = s.inode := rfl
@[simp] theorem State.setBlock_disk (b : Nat) (blk : Nat → UInt8) :
    (s.setBlock b blk).disk = Function.update s.disk b blk := rfl
@[simp] theorem State.setInode_sb (inum : Nat) (d : Dinode) : (s.setInode inum d).sb = s.sb := rfl
@[simp] theorem State.setInode_disk (inum : Nat) (d : Dinode) :
    (s.setInode inum d).disk = s.disk := rfl
@[simp] theorem State.setInode_inode (inum : Nat) (d : Dinode) :
    (s.setInode inum d).inode = Function.update s.inode inum d := rfl

end Write

/-! ## Blocks -/

section Blocks

variable (s : State)

/-- `(bp->data[bi/8] & m) == 0` in `balloc` and `bfree`, for block `b`: `bi = b % BPB` and
`m = 1 << (bi % 8)`. -/
def State.isFree (b : Nat) : Bool :=
  (s.disk (BBLOCK b s.sb) (b % BPB / 8) &&& (1 : UInt8) <<< (b % BPB % 8).toUInt8) == 0

/-- `bp->data[bi/8] |= m`. -/
def State.markBit (b : Nat) : State :=
  s.setByte (BBLOCK b s.sb) (b % BPB / 8)
    (s.disk (BBLOCK b s.sb) (b % BPB / 8) ||| (1 : UInt8) <<< (b % BPB % 8).toUInt8)

/-- `bp->data[bi/8] &= ~m`. -/
def State.clearBit (b : Nat) : State :=
  s.setByte (BBLOCK b s.sb) (b % BPB / 8)
    (s.disk (BBLOCK b s.sb) (b % BPB / 8) &&& ~~~((1 : UInt8) <<< (b % BPB % 8).toUInt8))

/-- `bzero`. -/
def State.bzero (bno : Nat) : State := s.setBlock bno fun _ => 0

/-- `balloc`: its two loops visit the blocks `0, 1, ..., sb.size - 1` in order; the first free
one is marked in use, zeroed and returned. `0` for "out of blocks". -/
def State.balloc : State × Nat :=
  match (List.range s.sb.size).find? s.isFree with
  | some b => ((s.markBit b).bzero b, b)
  | none => (s, 0)

/-- `bfree`. -/
def State.bfree (b : Nat) : Except String State :=
  if s.isFree b then .error "freeing free block" else .ok (s.clearBit b)

/-- Block `b`'s bit is bit `b % BPB % 8` of byte `b % BPB / 8` of its bitmap block. -/
theorem State.isFree_eq (b : Nat) :
    s.isFree b = !(s.disk (BBLOCK b s.sb) (b % BPB / 8)).toNat.testBit (b % BPB % 8) := by
  have hk : b % BPB % 8 < 8 := Nat.mod_lt _ (by decide)
  unfold State.isFree
  cases hbit : (s.disk (BBLOCK b s.sb) (b % BPB / 8)).toNat.testBit (b % BPB % 8)
  · simp [(and_bit_eq_zero_iff _ hk).mpr hbit]
  · have hne := mt (and_bit_eq_zero_iff (s.disk (BBLOCK b s.sb) (b % BPB / 8)) hk).mp
    simp only [hbit, Bool.true_eq_false, not_false_eq_true, forall_const] at hne
    simp [hne]

/-- Two blocks with the same bitmap block, byte and bit are the same block. -/
theorem eq_of_bit_pos {sb : Superblock} {y b : Nat} (hblk : BBLOCK y sb = BBLOCK b sb)
    (hbyte : y % BPB / 8 = b % BPB / 8) (hbit : y % BPB % 8 = b % BPB % 8) : y = b := by
  unfold BBLOCK at hblk
  have hq : y / BPB = b / BPB := by omega
  have hr : y % BPB = b % BPB := by omega
  rw [← Nat.div_add_mod y BPB, ← Nat.div_add_mod b BPB, hq, hr]

@[simp] theorem State.markBit_sb (b : Nat) : (s.markBit b).sb = s.sb := rfl
@[simp] theorem State.markBit_inode (b : Nat) : (s.markBit b).inode = s.inode := rfl
@[simp] theorem State.clearBit_sb (b : Nat) : (s.clearBit b).sb = s.sb := rfl
@[simp] theorem State.clearBit_inode (b : Nat) : (s.clearBit b).inode = s.inode := rfl
@[simp] theorem State.bzero_sb (b : Nat) : (s.bzero b).sb = s.sb := rfl
@[simp] theorem State.bzero_inode (b : Nat) : (s.bzero b).inode = s.inode := rfl

theorem State.markBit_disk_of_ne (b : Nat) {blk : Nat} (h : blk ≠ BBLOCK b s.sb) :
    (s.markBit b).disk blk = s.disk blk :=
  Function.update_of_ne h _ _

theorem State.clearBit_disk_of_ne (b : Nat) {blk : Nat} (h : blk ≠ BBLOCK b s.sb) :
    (s.clearBit b).disk blk = s.disk blk :=
  Function.update_of_ne h _ _

/-- A bit is read from its bitmap block alone. -/
theorem State.isFree_congr {s s' : State} {b : Nat}
    (hd : s'.disk (BBLOCK b s.sb) = s.disk (BBLOCK b s.sb)) (hsb : s'.sb = s.sb) :
    s'.isFree b = s.isFree b := by
  rw [State.isFree_eq, State.isFree_eq, hsb, hd]

/-- Writing a block other than `y`'s bitmap block leaves `y`'s bit alone. -/
theorem State.isFree_setBlock {blk y : Nat} (v : Nat → UInt8) (h : blk ≠ BBLOCK y s.sb) :
    (s.setBlock blk v).isFree y = s.isFree y :=
  State.isFree_congr (Function.update_of_ne (Ne.symm h) _ _) rfl

/-- `markBit b` marks `b` in use and no other block. -/
theorem State.isFree_markBit (b y : Nat) :
    (s.markBit b).isFree y = (s.isFree y && !decide (y = b)) := by
  have hk : b % BPB % 8 < 8 := Nat.mod_lt _ (by decide)
  have hj : y % BPB % 8 < 8 := Nat.mod_lt _ (by decide)
  by_cases hblk : BBLOCK y s.sb = BBLOCK b s.sb
  · by_cases hbyte : y % BPB / 8 = b % BPB / 8
    · rw [State.isFree_eq, State.isFree_eq]
      simp only [State.markBit, State.setByte, State.setBlock_disk, State.setBlock_sb, hblk,
        hbyte, Function.update_self, testBit_or_bit _ hk]
      by_cases hyb : y = b
      · subst hyb
        simp
      · have hbit : b % BPB % 8 ≠ y % BPB % 8 := fun h' => hyb (eq_of_bit_pos hblk hbyte h'.symm)
        simp [hbit, hyb]
    · have hyb : y ≠ b := fun h' => hbyte (h' ▸ rfl)
      rw [State.isFree_eq, State.isFree_eq]
      simp only [State.markBit, State.setByte, State.setBlock_disk, State.setBlock_sb, hblk,
        Function.update_self, Function.update_of_ne hbyte]
      simp [hyb]
  · have hyb : y ≠ b := fun h' => hblk (h' ▸ rfl)
    rw [State.isFree_congr (State.markBit_disk_of_ne s b hblk) rfl]
    simp [hyb]

/-- `clearBit b` frees `b` and no other block. -/
theorem State.isFree_clearBit (b y : Nat) :
    (s.clearBit b).isFree y = (s.isFree y || decide (y = b)) := by
  have hk : b % BPB % 8 < 8 := Nat.mod_lt _ (by decide)
  have hj : y % BPB % 8 < 8 := Nat.mod_lt _ (by decide)
  by_cases hblk : BBLOCK y s.sb = BBLOCK b s.sb
  · by_cases hbyte : y % BPB / 8 = b % BPB / 8
    · rw [State.isFree_eq, State.isFree_eq]
      simp only [State.clearBit, State.setByte, State.setBlock_disk, State.setBlock_sb, hblk,
        hbyte, Function.update_self, testBit_and_not_bit _ hk hj]
      by_cases hyb : y = b
      · subst hyb
        simp
      · have hbit : b % BPB % 8 ≠ y % BPB % 8 := fun h' => hyb (eq_of_bit_pos hblk hbyte h'.symm)
        simp [hbit, hyb]
    · have hyb : y ≠ b := fun h' => hbyte (h' ▸ rfl)
      rw [State.isFree_eq, State.isFree_eq]
      simp only [State.clearBit, State.setByte, State.setBlock_disk, State.setBlock_sb, hblk,
        Function.update_self, Function.update_of_ne hbyte]
      simp [hyb]
  · have hyb : y ≠ b := fun h' => hblk (h' ▸ rfl)
    rw [State.isFree_congr (State.clearBit_disk_of_ne s b hblk) rfl]
    simp [hyb]

end Blocks

/-! ## Inode content -/

section Content

variable (s : State)

/-- `if((addr = ip->addrs[i]) == 0){ addr = balloc(ip->dev); if(addr == 0) return 0;
ip->addrs[i] = addr; }` in `bmap`. -/
def State.addrOrAlloc (inum : Nat) (i : Fin (NDIRECT + 1)) : State × Nat :=
  let addr := (s.inode inum).addrs i
  if addr = 0 then
    let r := s.balloc
    if r.2 = 0 then (r.1, 0) else (r.1.setAddr inum i r.2, r.2)
  else (s, addr)

/-- `if((addr = a[bn]) == 0){ addr = balloc(ip->dev); if(addr){ a[bn] = addr; ... } }` in
`bmap`, for the indirect block `ind`. -/
def State.entryOrAlloc (ind bn : Nat) : State × Nat :=
  let addr := getWord (s.disk ind) bn
  if addr = 0 then
    let r := s.balloc
    if r.2 = 0 then (r.1, 0) else (r.1.writeWord ind bn r.2, r.2)
  else (s, addr)

/-- `bmap`: the disk block of block `bn` of inode `inum`, allocated if there is none; `0` when
the disk is full. -/
def State.bmap (inum bn : Nat) : Except String (State × Nat) :=
  if h : bn < NDIRECT then .ok (s.addrOrAlloc inum ⟨bn, Nat.lt_succ_of_lt h⟩)
  else if bn - NDIRECT < NINDIRECT then
    -- load the indirect block, allocating if necessary
    let r := s.addrOrAlloc inum (Fin.last NDIRECT)
    if r.2 = 0 then .ok (r.1, 0) else .ok (r.1.entryOrAlloc r.2 (bn - NDIRECT))
  else .error "bmap: out of range"

/-- One turn of `itrunc`'s first loop. -/
def State.freeDirect (inum : Nat) (i : Fin NDIRECT) : Except String State :=
  let a := (s.inode inum).addrs i.castSucc
  if a ≠ 0 then (s.bfree a).map fun s => s.setAddr inum i.castSucc 0 else .ok s

/-- One turn of `itrunc`'s loop over the indirect block `ind`. -/
def State.freeEntry (ind j : Nat) : Except String State :=
  let a := getWord (s.disk ind) j
  if a ≠ 0 then s.bfree a else .ok s

/-- The indirect part of `itrunc`. -/
def State.freeIndirect (inum : Nat) : Except String State :=
  let ind := (s.inode inum).addrs (Fin.last NDIRECT)
  if ind ≠ 0 then do
    let s ← (List.range NINDIRECT).foldlM (fun s j => s.freeEntry ind j) s
    let s ← s.bfree ind
    pure (s.setAddr inum (Fin.last NDIRECT) 0)
  else .ok s

/-- `itrunc`. -/
def State.itrunc (inum : Nat) : Except String State := do
  let s ← (List.finRange NDIRECT).foldlM (fun s i => s.freeDirect inum i) s
  let s ← s.freeIndirect inum
  pure (s.setSize inum 0)

/-- `ialloc`: the first inode from 1 on whose type is 0, zeroed and given `type`. -/
def State.ialloc (type : Int16) : State × Option Nat :=
  match (List.range' 1 (s.sb.ninodes - 1)).find? (fun inum => (s.inode inum).type == 0) with
  | some inum => (s.setInode inum ⟨type, 0, 0, fun _ => 0⟩, some inum)
  | none => (s, none)

/-- `iput`: the last reference (`ip->ref == 1 && ip->valid`) to an inode with no links
truncates and frees it. -/
def State.iput (inum : Nat) (last : Bool) : Except String State :=
  if last ∧ (s.inode inum).nlink = 0 then
    (s.itrunc inum).map fun s => s.setInode inum { s.inode inum with type := 0 }
  else .ok s

end Content

/-! ## Copying to and from a process -/

/-- `copyin`: page by page, `len` bytes from user address `srcva` into `dst` at `pos`; `false`
at the first page that is neither mapped nor faulted in, the pages before it copied. -/
def copyin (mem : Mem) (dst : Nat → UInt8) (pos srcva len : Nat) : (Nat → UInt8) × Bool :=
  if len = 0 then (dst, true)
  else
    let va0 := PGROUNDDOWN srcva
    if mem.mapped va0 then
      let n := min (PGSIZE - (srcva - va0)) len
      copyin mem (copyBytes dst pos (fun i => mem.user (srcva + i)) n) (pos + n) (va0 + PGSIZE)
        (len - n)
    else (dst, false)
termination_by len
decreasing_by
  have : srcva - PGROUNDDOWN srcva < PGSIZE := by
    unfold PGROUNDDOWN PGSIZE
    omega
  omega

/-- `copyout`: page by page, `len` bytes of `src` to user address `dstva`. -/
def copyout (mem : Mem) (dstva : Nat) (src : Nat → UInt8) (len : Nat) : Mem × Bool :=
  if len = 0 then (mem, true)
  else
    let va0 := PGROUNDDOWN dstva
    if va0 ≥ MAXVA then (mem, false)
    else if !mem.mapped va0 then (mem, false)
    -- forbid copyout over read-only user text pages
    else if !mem.writable va0 then (mem, false)
    else
      let n := min (PGSIZE - (dstva - va0)) len
      copyout { mem with user := copyBytes mem.user dstva src n } (va0 + PGSIZE)
        (fun i => src (n + i)) (len - n)
termination_by len
decreasing_by
  have : dstva - PGROUNDDOWN dstva < PGSIZE := by
    unfold PGROUNDDOWN PGSIZE
    omega
  omega

/-- `either_copyin`. -/
def eitherCopyin (mem : Mem) (dst : Nat → UInt8) (pos : Nat) (userSrc : Bool) (src len : Nat) :
    (Nat → UInt8) × Bool :=
  if userSrc then copyin mem dst pos src len
  else (copyBytes dst pos (fun i => mem.kernel (src + i)) len, true)

/-- `either_copyout`. -/
def eitherCopyout (mem : Mem) (userDst : Bool) (dst : Nat) (src : Nat → UInt8) (len : Nat) :
    Mem × Bool :=
  if userDst then copyout mem dst src len
  else ({ mem with kernel := copyBytes mem.kernel dst src len }, true)

/-! ## Reading and writing an inode -/

section ReadWrite

/-- The loop of `writei`, from byte `off` of the file with `tot` of `n` bytes written: the
state, and `tot` and `off` when it stops. -/
def State.writeiLoop (s : State) (inum : Nat) (mem : Mem) (userSrc : Bool) (src off n tot : Nat) :
    Except String (State × Nat × Nat) :=
  if tot < n then
    match s.bmap inum (off / BSIZE) with
    | .error e => .error e
    | .ok (s, addr) =>
      if addr = 0 then .ok (s, tot, off)
      else
        let m := min (n - tot) (BSIZE - off % BSIZE)
        let r := eitherCopyin mem (s.disk addr) (off % BSIZE) userSrc src m
        -- what `either_copyin` copied stays in the buffer, whether or not it failed
        let s := s.setBlock addr r.1
        if r.2 then s.writeiLoop inum mem userSrc (src + m) (off + m) n (tot + m)
        else .ok (s, tot, off)
  else .ok (s, tot, off)
termination_by n - tot
decreasing_by
  have : off % BSIZE < BSIZE := Nat.mod_lt _ (by decide)
  omega

/-- `writei`; `off` and `n` are `uint`s. -/
def State.writei (s : State) (inum : Nat) (mem : Mem) (userSrc : Bool) (src off n : Nat) :
    Except String (State × Int) :=
  if off > (s.inode inum).size ∨ (off + n) % 2 ^ 32 < off then .ok (s, -1)
  else if off + n > MAXFILE * BSIZE then .ok (s, -1)
  else
    match s.writeiLoop inum mem userSrc src off n 0 with
    | .error e => .error e
    | .ok (s, tot, off) =>
      .ok (if off > (s.inode inum).size then s.setSize inum off else s, tot)

/-- The loop of `readi`: the state, the process's memory, and what `readi` returns. -/
def State.readiLoop (s : State) (inum : Nat) (mem : Mem) (userDst : Bool) (dst off n tot : Nat) :
    Except String (State × Mem × Int) :=
  if tot < n then
    match s.bmap inum (off / BSIZE) with
    | .error e => .error e
    | .ok (s, addr) =>
      if addr = 0 then .ok (s, mem, tot)
      else
        let m := min (n - tot) (BSIZE - off % BSIZE)
        let r := eitherCopyout mem userDst dst (fun i => s.disk addr (off % BSIZE + i)) m
        if r.2 then s.readiLoop inum r.1 userDst (dst + m) (off + m) n (tot + m)
        else .ok (s, r.1, -1)
  else .ok (s, mem, tot)
termination_by n - tot
decreasing_by
  have : off % BSIZE < BSIZE := Nat.mod_lt _ (by decide)
  omega

/-- `readi`; `off` and `n` are `uint`s. -/
def State.readi (s : State) (inum : Nat) (mem : Mem) (userDst : Bool) (dst off n : Nat) :
    Except String (State × Mem × Int) :=
  if off > (s.inode inum).size ∨ (off + n) % 2 ^ 32 < off then .ok (s, mem, 0)
  else
    let n := if off + n > (s.inode inum).size then (s.inode inum).size - off else n
    s.readiLoop inum mem userDst dst off n 0

end ReadWrite

end Xv6.Fs
