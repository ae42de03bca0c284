import Xv6.Fs.Alloc

/-!
# Xv6.Fs.Run — the block layer as a transition system

The inode operations of `kernel/fs.c` that move blocks, as steps from one disk image to the next:
`bmap`, `writei`, `readi`, `itrunc`, `ialloc` and `iput`. An operation on an inode has it locked,
and `ilock` panics on an inode of type 0 (`Op.Locked`); a panic ends the run, so it has no next
image.

From an image that `Ok` describes, every run keeps `Ok` (`blocks_ok_of_reachable`). `Ok` asks more
of the image than that its inodes' blocks are marked and distinct: the blocks before the data,
the bitmap among them, must be marked too. Without that, `balloc` hands out a bitmap block that is
free in its own bitmap, and the `bzero` that follows clears the bits of blocks in use
(`balloc_hands_out_bitmap_block`).
-/

namespace Xv6.Fs

/-- An operation of the block layer, with its arguments. -/
inductive Op where
  | bmap (inum bn : Nat)
  | writei (inum : Nat) (mem : Mem) (userSrc : Bool) (src off n : Nat)
  | readi (inum : Nat) (mem : Mem) (userDst : Bool) (dst off n : Nat)
  | itrunc (inum : Nat)
  | ialloc (type : Int16)
  | iput (inum : Nat) (last : Bool)

/-- The image after an operation; `iput`'s `last` is `ip->ref == 1 && ip->valid`. -/
def Op.run (s : State) : Op → Except String State
  | .bmap inum bn => (s.bmap inum bn).map Prod.fst
  | .writei inum mem userSrc src off n => (s.writei inum mem userSrc src off n).map Prod.fst
  | .readi inum mem userDst dst off n => (s.readi inum mem userDst dst off n).map Prod.fst
  | .itrunc inum => s.itrunc inum
  | .ialloc type => .ok (s.ialloc type).1
  | .iput inum last => s.iput inum last

/-- The inode an operation works on is locked, which `ilock` allows for an inode in use only. -/
def Op.Locked (s : State) : Op → Prop
  | .bmap inum _ | .writei inum .. | .readi inum .. | .itrunc inum | .iput inum _ =>
    (s.inode inum).type ≠ 0
  | .ialloc _ => True

/-- The images a run of the block layer reaches from an image `Ok` describes. -/
inductive Reachable : State → Prop where
  | image {s : State} : Ok s → Reachable s
  | step {s s' : State} (op : Op) : Reachable s → op.Locked s → op.run s = .ok s' → Reachable s'

/-- A result of `Except` that maps to `.ok`. -/
theorem Except.map_eq_ok {α β ε : Type} {f : α → β} {x : Except ε α} {b : β}
    (h : x.map f = .ok b) : ∃ a, x = .ok a ∧ f a = b := by
  cases x with
  | error e => cases h
  | ok a => exact ⟨a, rfl, Except.ok.inj h⟩

/-- Each operation keeps `Ok`. -/
theorem Ok.run {s s' : State} (h : Ok s) (op : Op) (hl : op.Locked s) (hrun : op.run s = .ok s') :
    Ok s' := by
  cases op with
  | bmap inum bn =>
    obtain ⟨⟨t, a⟩, hb, rfl⟩ := Except.map_eq_ok hrun
    -- beyond `MAXFILE` it panics
    by_cases hbn : bn < MAXFILE
    · obtain ⟨t', a', hb', hok, -⟩ := h.bmap hl hbn
      rw [hb] at hb'
      cases hb'
      exact hok
    · have hout : s.bmap inum bn = .error "bmap: out of range" := by
        unfold MAXFILE at hbn
        simp [State.bmap, show ¬ bn < NDIRECT by omega, show ¬ bn - NDIRECT < NINDIRECT by omega]
      rw [hout] at hb
      cases hb
  | writei inum mem userSrc src off n =>
    obtain ⟨⟨t, r⟩, hw, rfl⟩ := Except.map_eq_ok hrun
    obtain ⟨t', r', hw', hok⟩ := h.writei hl mem userSrc src off n
    rw [hw] at hw'
    cases hw'
    exact hok
  | readi inum mem userDst dst off n =>
    obtain ⟨⟨t, r⟩, hr, rfl⟩ := Except.map_eq_ok hrun
    obtain ⟨mem', r', hr'⟩ := h.readi hl mem userDst dst off n
    rw [hr] at hr'
    cases hr'
    exact h
  | itrunc inum =>
    obtain ⟨t, hi, htr⟩ := h.itrunc hl
    rw [Op.run, hi] at hrun
    cases hrun
    exact h.truncated htr
  | ialloc type =>
    cases hrun
    exact h.ialloc type
  | iput inum last =>
    obtain ⟨t, hi, hok⟩ := h.iput hl last
    rw [Op.run, hi] at hrun
    cases hrun
    exact hok

theorem ok_of_reachable {s : State} (h : Reachable s) : Ok s := by
  induction h with
  | image hok => exact hok
  | step op _ hl hrun ih => exact ih.run op hl hrun

/-- In every image a run reaches, every block an inode in use holds (a direct block, the indirect
block, or a nonzero entry of it) is a data block marked in use, no block is held twice, every
block below a file's size is there, and `readi` never panics and leaves the image as it is: its
`bmap` calls allocate nothing, so it writes nothing to the log. -/
theorem blocks_ok_of_reachable {s : State} (h : Reachable s) :
    (∀ inum k b, s.Holds inum k b → s.sb.dataStart ≤ b ∧ b < s.sb.size ∧ s.isFree b = false) ∧
    (∀ inum k inum' k' b, s.Holds inum k b → s.Holds inum' k' b → inum = inum' ∧ k = k') ∧
    (∀ inum, (s.inode inum).type ≠ 0 → ∀ bn, bn * BSIZE < (s.inode inum).size →
      s.blockAt inum bn ≠ 0) ∧
    (∀ inum, (s.inode inum).type ≠ 0 → ∀ mem userDst dst off n,
      ∃ mem' r, s.readi inum mem userDst dst off n = .ok (s, mem', r)) := by
  have hok := ok_of_reachable h
  exact ⟨hok.held, hok.unique, fun inum ht => (hok.mapped inum ht).2,
    fun inum ht mem userDst dst off n => hok.readi ht mem userDst dst off n⟩

/-! ## An image and the hole in its bitmap -/

/-- A small image: blocks 0 to 3 are the boot block, the superblock, the log and the bitmap (block
3), blocks 4 to 7 the data; inode 1 is an empty file. -/
def tinyImage : State where
  sb := ⟨8, 4, 2, 3⟩
  disk := fun b i => if b = 3 ∧ i = 0 then 0x0f else 0
  inode := fun i => if i = 1 then ⟨2, 1, 0, fun _ => 0⟩ else ⟨0, 0, 0, fun _ => 0⟩

theorem tinyImage_holds {i k b : Nat} : ¬ tinyImage.Holds i k b := fun ⟨ht, _, hs, hb⟩ => by
  by_cases hi : i = 1
  · subst hi
    exact hb (hs ▸ State.slot_of_addrs_zero (fun _ => rfl) k)
  · exact ht (by simp [tinyImage, hi])

theorem tinyImage_ok : Ok tinyImage where
  layout := ⟨by decide, fun b hb => by
    simp only [tinyImage, BBLOCK, Superblock.dataStart, BPB, BSIZE] at hb ⊢
    omega⟩
  metaUsed := by
    simp only [tinyImage, Superblock.dataStart]
    decide
  held _ _ _ hh := absurd hh tinyImage_holds
  unique _ _ _ _ _ hh := absurd hh tinyImage_holds
  mapped i _ := by
    by_cases hi : i = 1 <;> simp [tinyImage, hi]

/-- Kernel memory of `'a'` bytes. -/
def kernelA : Mem where
  mapped := fun _ => false
  writable := fun _ => false
  user := fun _ => 0
  kernel := fun _ => 97

/-- `tinyImage` once inode 1 has had one byte written at offset 0 from `kernelA`: `bmap` took
block 4, the first free block, and the file holds one byte. -/
def tinyWritten : State :=
  let s := ((tinyImage.markBit 4).bzero 4).setAddr 1 0 4
  (s.setBlock 4 (Lib.copyBytes (s.disk 4) 0 kernelA.kernel 1)).setSize 1 1

/-- `writei(ip, 0, 'a', 0, 1)` on inode 1 of `tinyImage` allocates block 4 and writes its byte. -/
theorem tinyImage_writei : tinyImage.writei 1 kernelA false 0 0 1 = .ok (tinyWritten, 1) := by
  have hb : tinyImage.bmap 1 0 = .ok (((tinyImage.markBit 4).bzero 4).setAddr 1 0 4, 4) := rfl
  have hm : min (1 - 0) (BSIZE - 0 % BSIZE) = 1 := by decide
  have hloop : tinyImage.writeiLoop 1 kernelA false 0 0 1 0 =
      .ok ((((tinyImage.markBit 4).bzero 4).setAddr 1 0 4).setBlock 4
        (Lib.copyBytes ((((tinyImage.markBit 4).bzero 4).setAddr 1 0 4).disk 4) 0 kernelA.kernel 1),
        1, 1) := by
    rw [State.writeiLoop]
    simp only [show (0 : Nat) < 1 from by decide, if_true, Nat.zero_div, hb,
      show (4 : Nat) ≠ 0 from by decide, if_false, hm, eitherCopyin, Bool.false_eq_true]
    rw [State.writeiLoop]
    simp
  unfold State.writei
  rw [if_neg (by decide), if_neg (by decide), hloop]
  rfl

/-- A run that puts a block in a file: from `tinyImage`, `writei` allocates block 4 for inode 1.
Block 4 is a data block marked in use and held by inode 1 alone; the file's one block below its
size is there; and `readi` of it leaves the image as it is. -/
theorem tinyWritten_blocks_ok :
    Reachable tinyWritten ∧ tinyWritten.Holds 1 0 4 ∧
      (tinyWritten.sb.dataStart ≤ 4 ∧ 4 < tinyWritten.sb.size ∧ tinyWritten.isFree 4 = false) ∧
      (∀ inum k, tinyWritten.Holds inum k 4 → inum = 1 ∧ k = 0) ∧
      0 * BSIZE < (tinyWritten.inode 1).size ∧ tinyWritten.blockAt 1 0 ≠ 0 ∧
      ∀ mem userDst dst off n,
        ∃ mem' r, tinyWritten.readi 1 mem userDst dst off n = .ok (tinyWritten, mem', r) := by
  have hlocked : (Op.writei 1 kernelA false 0 0 1).Locked tinyImage := by
    simp [Op.Locked, tinyImage]
  have hrun : (Op.writei 1 kernelA false 0 0 1).run tinyImage = .ok tinyWritten := by
    rw [Op.run, tinyImage_writei]
    rfl
  have hr : Reachable tinyWritten := .step _ (.image tinyImage_ok) hlocked hrun
  have htype : (tinyWritten.inode 1).type ≠ 0 := by decide
  have hsize : 0 * BSIZE < (tinyWritten.inode 1).size := by decide
  have hholds : tinyWritten.Holds 1 0 4 := ⟨htype, by decide, by decide, by decide⟩
  obtain ⟨hheld, huniq, hmapped, hreadi⟩ := blocks_ok_of_reachable hr
  exact ⟨hr, hholds, hheld 1 0 4 hholds, fun inum k h => huniq inum k 1 0 4 h hholds, hsize,
    hmapped 1 htype 0 hsize, hreadi 1 htype⟩

/-- An image whose inodes' blocks are marked and distinct and whose files have all their blocks,
but whose bitmap block (block 1) is free in its own bitmap; inode 1 holds block 2. -/
def bitmapHole : State where
  sb := ⟨4, 2, 2, 1⟩
  disk := fun b i => if b = 1 ∧ i = 0 then 5 else 0
  inode := fun i => if i = 1 then ⟨2, 1, BSIZE, fun k => if k = 0 then 2 else 0⟩
    else ⟨0, 0, 0, fun _ => 0⟩

theorem bitmapHole_holds {i k b : Nat} : bitmapHole.Holds i k b ↔ i = 1 ∧ k = 0 ∧ b = 2 := by
  constructor
  · rintro ⟨ht, hk, hs, hb⟩
    have hi : i = 1 := by
      by_contra hi
      exact ht (by simp [bitmapHole, hi])
    subst hi
    unfold State.slot at hs
    split at hs
    · rename_i hk'
      by_cases hk0 : k = 0
      · simp [bitmapHole, hk0] at hs
        exact ⟨rfl, hk0, hs.symm⟩
      · have : (⟨k, hk'⟩ : Fin (NDIRECT + 1)) ≠ 0 := fun he => hk0 (congrArg Fin.val he)
        simp [bitmapHole, this] at hs
        exact absurd hs.symm hb
    · simp [bitmapHole, Fin.last] at hs
      exact absurd hs.symm hb
  · rintro ⟨rfl, rfl, rfl⟩
    exact ⟨by simp [bitmapHole], by unfold NSLOT; omega, by simp [State.slot, bitmapHole], by omega⟩

/-- The three conditions hold of `bitmapHole`, and one `bmap` that allocates a block for inode 1
breaks the first: `balloc` hands out the bitmap block, `bzero` clears it, and block 2, still
inode 1's, reads free. -/
theorem balloc_hands_out_bitmap_block :
    (∀ i k b, bitmapHole.Holds i k b → bitmapHole.isFree b = false) ∧
    (∀ i k i' k' b, bitmapHole.Holds i k b → bitmapHole.Holds i' k' b → i = i' ∧ k = k') ∧
    (∀ i, (bitmapHole.inode i).type ≠ 0 → ∀ bn, bn * BSIZE < (bitmapHole.inode i).size →
      bitmapHole.blockAt i bn ≠ 0) ∧
    ∃ s', bitmapHole.bmap 1 1 = .ok (s', 1) ∧ s'.Holds 1 0 2 ∧ s'.isFree 2 = true := by
  refine ⟨fun i k b hh => ?_, fun i k i' k' b hh hh' => ?_, fun i hi bn hbn => ?_, ?_⟩
  · obtain ⟨-, -, rfl⟩ := bitmapHole_holds.mp hh
    decide
  · obtain ⟨rfl, rfl, rfl⟩ := bitmapHole_holds.mp hh
    obtain ⟨rfl, rfl, -⟩ := bitmapHole_holds.mp hh'
    exact ⟨rfl, rfl⟩
  · have hi1 : i = 1 := by
      by_contra hne
      exact hi (by simp [bitmapHole, hne])
    subst hi1
    have hbn0 : bn = 0 := by
      simp only [bitmapHole, if_true] at hbn
      unfold BSIZE at hbn
      omega
    subst hbn0
    decide
  · refine ⟨_, rfl, ⟨by decide, by decide, by decide, by decide⟩, by decide⟩

end Xv6.Fs
