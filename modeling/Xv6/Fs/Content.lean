import Xv6.Fs.Alloc

/-!
# Xv6.Fs.Content — a `writei` that stops inside a chunk

`writei` copies each chunk of a write straight into the buffer of its block with
`either_copyin`, and counts the chunk in `tot` only when the copy succeeds. A `copyin` that fails
on a later page of a chunk has already copied the bytes of the pages before it; the loop stops
without counting the chunk, but the bytes stay in the buffer, where the next `readi` of the block
finds them (`writei_partial_copy_changes_file`).
-/

namespace Xv6.Fs

open Xv6.Lib

/-! ## `copyin` page by page -/

/-- A page that is neither mapped nor faulted in stops `copyin` with what it has copied. -/
theorem copyin_unmapped (mem : Mem) (dst : Nat → UInt8) (pos srcva : Nat) {len : Nat}
    (hlen : len ≠ 0) (hmap : mem.mapped (PGROUNDDOWN srcva) = false) :
    copyin mem dst pos srcva len = (dst, false) := by
  rw [copyin]
  simp [hlen, hmap]

/-- A mapped page is copied, up to its end, before `copyin` goes on with the next one. -/
theorem copyin_mapped (mem : Mem) (dst : Nat → UInt8) (pos srcva : Nat) {len : Nat}
    (hlen : len ≠ 0) (hmap : mem.mapped (PGROUNDDOWN srcva) = true) :
    copyin mem dst pos srcva len =
      copyin mem (copyBytes dst pos (fun i => mem.user (srcva + i))
          (min (PGSIZE - (srcva - PGROUNDDOWN srcva)) len))
        (pos + min (PGSIZE - (srcva - PGROUNDDOWN srcva)) len) (PGROUNDDOWN srcva + PGSIZE)
        (len - min (PGSIZE - (srcva - PGROUNDDOWN srcva)) len) := by
  rw [copyin]
  simp [hlen, hmap]

/-! ## The failing input -/

/-- A one-block file of zeros: inode 1 holds data block 4 and has size `BSIZE`. -/
def oneBlockFile : State where
  sb := ⟨8, 4, 2, 3⟩
  disk := fun b i => if b = 3 ∧ i = 0 then 0x1f else 0
  inode := fun i => if i = 1 then ⟨2, 1, BSIZE, fun k => if k = 0 then 4 else 0⟩
    else ⟨0, 0, 0, fun _ => 0⟩

/-- A process whose first page is mapped and full of `0xab`, and whose second page is not. -/
def firstPageOnly : Mem where
  mapped := fun va => va = 0
  writable := fun _ => true
  user := fun _ => 0xab
  kernel := fun _ => 0

/-- The source of `write(fd, PGSIZE - 10, 100)`: ten readable bytes, then an unmapped page. -/
theorem firstPageOnly_copyin (dst : Nat → UInt8) :
    copyin firstPageOnly dst 0 (PGSIZE - 10) 100 = (copyBytes dst 0 (fun _ => 0xab) 10, false) := by
  rw [copyin_mapped _ _ _ _ (by decide) (by decide)]
  rw [copyin_unmapped _ _ _ _ (by decide) (by decide)]
  rfl

theorem oneBlockFile_bmap : oneBlockFile.bmap 1 0 = .ok (oneBlockFile, 4) := by
  have hb : oneBlockFile.blockAt 1 0 = 4 := by decide
  rw [← hb]
  exact State.bmap_of_blockAt (by decide) (by rw [hb]; decide)

/-- `readi` of the first byte of a file into kernel memory copies byte 0 of its first block. -/
theorem State.readi_first_byte (s : State) {inum b : Nat} (mem : Mem) (dst : Nat)
    (hsize : 1 ≤ (s.inode inum).size) (hb : s.bmap inum 0 = .ok (s, b)) (hb0 : b ≠ 0) :
    (s.readi inum mem false dst 0 1).map (fun r => r.2.1.kernel dst) = .ok (s.disk b 0) := by
  have hm : min (1 - 0) (BSIZE - 0) = 1 := by decide
  have hn : ¬ (0 + 1 > (s.inode inum).size) := by omega
  unfold State.readi
  rw [if_neg (by omega)]
  simp only [hn, if_false]
  rw [State.readiLoop]
  simp only [show (0 : Nat) < 1 from by decide, if_true, Nat.zero_div, hb, hb0, if_false,
    Nat.zero_mod, hm, eitherCopyout, Bool.false_eq_true]
  rw [State.readiLoop]
  simp only [Nat.lt_irrefl, if_false, Except.map]
  rw [copyBytes_of_mem _ _ (le_refl dst) (by omega), Nat.sub_self]

/-- `writei(ip, 1, PGSIZE - 10, 0, 100)` on `oneBlockFile` from `firstPageOnly` returns 0: no byte
written, the size as it was. Yet `readi` of byte 0, which returned 0 before, returns `0xab`
after. -/
theorem writei_partial_copy_changes_file :
    ∃ s', oneBlockFile.writei 1 firstPageOnly true (PGSIZE - 10) 0 100 = .ok (s', 0) ∧
      (s'.inode 1).size = (oneBlockFile.inode 1).size ∧
      (oneBlockFile.readi 1 firstPageOnly false 0 0 1).map (fun r => r.2.1.kernel 0) = .ok 0 ∧
      (s'.readi 1 firstPageOnly false 0 0 1).map (fun r => r.2.1.kernel 0) = .ok 0xab := by
  -- the block is there, so neither read allocates
  have hb' : (oneBlockFile.setBlock 4 (copyBytes (oneBlockFile.disk 4) 0 (fun _ => 0xab) 10)).bmap
      1 0 = .ok (oneBlockFile.setBlock 4 (copyBytes (oneBlockFile.disk 4) 0 (fun _ => 0xab) 10), 4) :=
    State.bmap_of_blockAt (s := oneBlockFile.setBlock 4 _) (by decide) (by decide)
  refine ⟨oneBlockFile.setBlock 4 (copyBytes (oneBlockFile.disk 4) 0 (fun _ => 0xab) 10), ?_,
    rfl, oneBlockFile.readi_first_byte _ _ (by decide) oneBlockFile_bmap (by decide),
    State.readi_first_byte _ _ _ (by decide) hb' (by decide)⟩
  -- the checks pass, and the loop's first chunk is the whole write
  have hloop : oneBlockFile.writeiLoop 1 firstPageOnly true (PGSIZE - 10) 0 100 0 =
      .ok (oneBlockFile.setBlock 4 (copyBytes (oneBlockFile.disk 4) 0 (fun _ => 0xab) 10), 0, 0) := by
    have hm : min (100 - 0) (BSIZE - 0) = 100 := by decide
    rw [State.writeiLoop]
    simp only [show (0 : Nat) < 100 from by decide, if_true, Nat.zero_div, oneBlockFile_bmap]
    simp only [show (4 : Nat) ≠ 0 from by decide, if_false, Nat.zero_mod, hm, eitherCopyin,
      if_true, firstPageOnly_copyin, Bool.false_eq_true]
  unfold State.writei
  rw [if_neg (by decide), if_neg (by decide), hloop]
  simp only [gt_iff_lt, Nat.not_lt_zero, if_false, Nat.cast_zero]

end Xv6.Fs
