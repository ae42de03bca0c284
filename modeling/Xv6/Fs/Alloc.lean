import Xv6.Fs.Basic
import Xv6.Lib.Loop

/-!
# Xv6.Fs.Alloc — which blocks the inodes hold, and the free bitmap

An inode in use holds its direct blocks, its indirect block and the nonzero entries of that
block: its slots (`State.slot`). `Ok` says that every held block is a data block marked in use,
that no block is held twice, that every block below a file's size is there, and that the
metadata at the front of the image (boot block, superblock, log, inode blocks and bitmap) is
marked in use. The last is needed: `balloc` may hand out any block whose bit is clear, and
writes to it go through the buffer of that block, bitmap or not.

Each function of `Xv6.Fs.Basic` keeps `Ok`; `readi` changes nothing, and neither `bmap` below a
file's size nor `bfree` inside `itrunc` panics.
-/

namespace Xv6.Fs

open Xv6.Lib

/-! ## The blocks an inode holds -/

/-- The slots of an inode: `NDIRECT` direct blocks, the indirect block, and its `NINDIRECT`
entries. -/
def NSLOT : Nat := NDIRECT + 1 + NINDIRECT

/-- Slot `k` of inode `inum`; an entry of an indirect block that is not there reads 0. -/
def State.slot (s : State) (inum k : Nat) : Nat :=
  if h : k < NDIRECT + 1 then (s.inode inum).addrs ⟨k, h⟩
  else
    let ind := (s.inode inum).addrs (Fin.last NDIRECT)
    if ind = 0 then 0 else getWord (s.disk ind) (k - (NDIRECT + 1))

/-- The slot that holds block `bn` of a file. -/
def dataSlot (bn : Nat) : Nat := if bn < NDIRECT then bn else bn + 1

/-- The disk block of block `bn` of inode `inum`, or 0: what `bmap` returns without allocating. -/
def State.blockAt (s : State) (inum bn : Nat) : Nat := s.slot inum (dataSlot bn)

/-- Inode `inum` is in use and holds block `b` in slot `k`. -/
def State.Holds (s : State) (inum k b : Nat) : Prop :=
  (s.inode inum).type ≠ 0 ∧ k < NSLOT ∧ s.slot inum k = b ∧ b ≠ 0

/-- What the block layer keeps of an image. -/
structure Ok (s : State) : Prop where
  /-- Block numbers are `uint`s, and the bitmap bits of the image's blocks lie in bitmap blocks
  before the first data block. -/
  layout : s.sb.size < 2 ^ 32 ∧ ∀ b, b < s.sb.size → BBLOCK b s.sb < s.sb.dataStart
  /-- The blocks before the first data block are in use. -/
  metaUsed : ∀ b, b < s.sb.dataStart → s.isFree b = false
  /-- A held block is a data block of the image, marked in use. -/
  held : ∀ inum k b, s.Holds inum k b → s.sb.dataStart ≤ b ∧ b < s.sb.size ∧ s.isFree b = false
  /-- No block is held twice. -/
  unique : ∀ inum k inum' k' b, s.Holds inum k b → s.Holds inum' k' b → inum = inum' ∧ k = k'
  /-- A file fits in `MAXFILE` blocks, and every block below its size is there. -/
  mapped : ∀ inum, (s.inode inum).type ≠ 0 → (s.inode inum).size ≤ MAXFILE * BSIZE ∧
    ∀ bn, bn * BSIZE < (s.inode inum).size → s.blockAt inum bn ≠ 0

theorem dataSlot_lt {bn : Nat} (h : bn < MAXFILE) : dataSlot bn < NSLOT := by
  unfold dataSlot NSLOT
  unfold MAXFILE at h
  split <;> omega

theorem dataSlot_ne {bn : Nat} : dataSlot bn ≠ NDIRECT := by
  unfold dataSlot
  split <;> omega

/-- A slot is read from the inode and, for an entry, from its indirect block alone. -/
theorem State.slot_congr {s s' : State} {inum : Nat} (k : Nat) (hi : s'.inode inum = s.inode inum)
    (hd : (s.inode inum).addrs (Fin.last NDIRECT) ≠ 0 →
      s'.disk ((s.inode inum).addrs (Fin.last NDIRECT)) =
        s.disk ((s.inode inum).addrs (Fin.last NDIRECT))) :
    s'.slot inum k = s.slot inum k := by
  unfold State.slot
  rw [hi]
  split
  · rfl
  · dsimp only
    split
    · rfl
    · rename_i hind
      rw [hd hind]

/-- Slot `NDIRECT` is the indirect block. -/
theorem State.slot_ind (s : State) (inum : Nat) :
    s.slot inum NDIRECT = (s.inode inum).addrs (Fin.last NDIRECT) := by
  simp [State.slot, Fin.last]

/-! ## The free bitmap -/

section Bitmap

variable {s : State}

/-- A held block is not the bitmap block of a block of the image. -/
theorem Ok.ne_bblock (h : Ok s) {inum k b y : Nat} (hb : s.Holds inum k b) (hy : y < s.sb.size) :
    b ≠ BBLOCK y s.sb := by
  have := h.layout.2 y hy
  have := (h.held inum k b hb).1
  omega

/-- What `balloc` returns: a block that was free, now marked in use and zeroed, or 0. -/
theorem Ok.balloc_cases (h : Ok s) :
    s.balloc = (s, 0) ∨ ∃ b, s.balloc = ((s.markBit b).bzero b, b) ∧ s.isFree b = true ∧
      s.sb.dataStart ≤ b ∧ b < s.sb.size ∧ b ≠ 0 := by
  unfold State.balloc
  cases hf : (List.range s.sb.size).find? s.isFree with
  | none => exact Or.inl rfl
  | some b =>
    have hfree : s.isFree b = true := List.find?_some hf
    have hlt : b < s.sb.size := List.mem_range.mp (List.mem_of_find?_eq_some hf)
    -- the metadata is in use, so the block found is a data block
    have hdata : s.sb.dataStart ≤ b := by
      by_contra hlt'
      rw [h.metaUsed b (Nat.lt_of_not_le hlt')] at hfree
      cases hfree
    have hpos : 0 < s.sb.dataStart := Nat.lt_of_le_of_lt (Nat.zero_le _) (h.layout.2 b hlt)
    exact Or.inr ⟨b, rfl, hfree, hdata, hlt, by omega⟩

/-- A free block is held by no one. -/
theorem Ok.not_holds_of_free (h : Ok s) {b : Nat} (hb : s.isFree b = true) (inum k : Nat) :
    ¬ s.Holds inum k b := fun hh => by
  rw [(h.held inum k b hh).2.2] at hb
  cases hb

end Bitmap

/-! ## Steps that only add -/

section Frame

variable {s s' : State}

/-- A step that keeps the superblock and the inodes, leaves every held indirect block alone,
and frees no block in use keeps `Ok`. -/
theorem Ok.of_frame (h : Ok s) (hsb : s'.sb = s.sb) (hi : s'.inode = s.inode)
    (hd : ∀ inum, (s.inode inum).type ≠ 0 → (s.inode inum).addrs (Fin.last NDIRECT) ≠ 0 →
      s'.disk ((s.inode inum).addrs (Fin.last NDIRECT)) =
        s.disk ((s.inode inum).addrs (Fin.last NDIRECT)))
    (hfree : ∀ y, y < s.sb.size → s.isFree y = false → s'.isFree y = false) : Ok s' := by
  have hslot : ∀ inum k, (s.inode inum).type ≠ 0 → s'.slot inum k = s.slot inum k :=
    fun inum k ht => State.slot_congr k (congrFun hi inum) (hd inum ht)
  have hholds : ∀ inum k b, s'.Holds inum k b ↔ s.Holds inum k b := by
    intro inum k b
    unfold State.Holds
    rw [hi]
    constructor
    · rintro ⟨ht, hk, hs, hb⟩
      exact ⟨ht, hk, (hslot inum k ht) ▸ hs, hb⟩
    · rintro ⟨ht, hk, hs, hb⟩
      exact ⟨ht, hk, (hslot inum k ht).symm ▸ hs, hb⟩
  refine ⟨by rw [hsb]; exact h.layout, fun b hb => ?_, fun inum k b hh => ?_,
    fun inum k inum' k' b hh hh' => h.unique inum k inum' k' b ((hholds ..).mp hh)
      ((hholds ..).mp hh'), fun inum ht => ?_⟩
  · rw [hsb] at hb
    exact hfree b (Nat.lt_of_lt_of_le hb (Nat.sub_le _ _)) (h.metaUsed b hb)
  · obtain ⟨h1, h2, h3⟩ := h.held inum k b ((hholds ..).mp hh)
    exact ⟨hsb ▸ h1, hsb ▸ h2, hfree b h2 h3⟩
  · rw [hi] at ht ⊢
    refine ⟨(h.mapped inum ht).1, fun bn hbn => ?_⟩
    unfold State.blockAt
    rw [hslot inum _ ht]
    exact (h.mapped inum ht).2 bn hbn

/-- Writing a block that is no held indirect block and no bitmap block keeps `Ok`. -/
theorem Ok.setBlock (h : Ok s) {a : Nat} (blk : Nat → UInt8) (hdata : s.sb.dataStart ≤ a)
    (hind : ∀ inum, (s.inode inum).type ≠ 0 → (s.inode inum).addrs (Fin.last NDIRECT) ≠ a) :
    Ok (s.setBlock a blk) := by
  refine h.of_frame rfl rfl (fun inum ht _ => ?_) (fun y hy hfree => ?_)
  · simp [Function.update_of_ne (hind inum ht)]
  · have := h.layout.2 y hy
    rw [State.isFree_setBlock _ _ (by omega), hfree]

/-- Filling slot `k0` of inode `inum` with a block no one holds, which is a data block marked in
use, keeps `Ok`, if nothing else moves. -/
theorem Ok.fill (h : Ok s) {inum k0 b : Nat} (hsb : s'.sb = s.sb) (htype : ∀ i, (s'.inode i).type = (s.inode i).type)
    (hsize : ∀ i, (s'.inode i).size = (s.inode i).size)
    (hslot : ∀ i k, (s.inode i).type ≠ 0 →
      s'.slot i k = if i = inum ∧ k = k0 then b else s.slot i k)
    (hfree : ∀ y, y < s.sb.size → s'.isFree y = s.isFree y)
    (hb : b ≠ 0) (hnew : ∀ i k, ¬ s.Holds i k b)
    (hdata : s.sb.dataStart ≤ b ∧ b < s.sb.size ∧ s.isFree b = false) : Ok s' := by
  -- what `s'` holds: what `s` held, and `b` in slot `k0` of `inum`
  have hholds : ∀ i k c, s'.Holds i k c → (i = inum ∧ k = k0 ∧ c = b) ∨ s.Holds i k c := by
    rintro i k c ⟨hti, hk, hs, hc⟩
    rw [htype] at hti
    rw [hslot i k hti] at hs
    by_cases hik : i = inum ∧ k = k0
    · rw [if_pos hik] at hs
      exact Or.inl ⟨hik.1, hik.2, hs.symm⟩
    · rw [if_neg hik] at hs
      exact Or.inr ⟨hti, hk, hs, hc⟩
  refine ⟨by rw [hsb]; exact h.layout, fun y hy => ?_, fun i k c hh => ?_,
    fun i k i' k' c hh hh' => ?_, fun i hti => ?_⟩
  · rw [hsb] at hy
    rw [hfree y (Nat.lt_of_lt_of_le hy (Nat.sub_le _ _))]
    exact h.metaUsed y hy
  · rw [hsb]
    rcases hholds i k c hh with ⟨_, _, rfl⟩ | hh
    · rw [hfree c hdata.2.1]
      exact hdata
    · obtain ⟨h1, h2, h3⟩ := h.held i k c hh
      rw [hfree c h2]
      exact ⟨h1, h2, h3⟩
  · rcases hholds i k c hh with ⟨hi, hk, hc⟩ | hh <;>
      rcases hholds i' k' c hh' with ⟨hi', hk', hc'⟩ | hh'
    · exact ⟨hi.trans hi'.symm, hk.trans hk'.symm⟩
    · exact absurd (hc ▸ hh') (hnew i' k')
    · exact absurd (hc' ▸ hh) (hnew i k)
    · exact h.unique i k i' k' c hh hh'
  · rw [htype] at hti
    rw [hsize]
    refine ⟨(h.mapped i hti).1, fun bn hbn => ?_⟩
    have hne := (h.mapped i hti).2 bn hbn
    unfold State.blockAt at hne ⊢
    rw [hslot i _ hti]
    -- the slot filled was empty, so it is not one of the file's blocks below its size
    split
    · exact hb
    · exact hne

end Frame

/-! ## Allocating -/

section Alloc

variable {s : State}

theorem State.holds_ind {s : State} {inum : Nat} (ht : (s.inode inum).type ≠ 0)
    (hind : (s.inode inum).addrs (Fin.last NDIRECT) ≠ 0) :
    s.Holds inum NDIRECT ((s.inode inum).addrs (Fin.last NDIRECT)) :=
  ⟨ht, by unfold NSLOT; omega, State.slot_ind .., hind⟩

/-- `balloc` keeps `Ok`, and every slot of an inode in use. -/
theorem Ok.balloc (h : Ok s) :
    Ok s.balloc.1 ∧ ∀ inum k, (s.inode inum).type ≠ 0 → s.balloc.1.slot inum k = s.slot inum k := by
  rcases h.balloc_cases with hb | ⟨b, hb, hfree, hdata, hlt, _⟩
  · rw [hb]
    exact ⟨h, fun _ _ _ => rfl⟩
  · rw [hb]
    -- a held indirect block is neither `b` nor `b`'s bitmap block
    have hind : ∀ inum, (s.inode inum).type ≠ 0 → (s.inode inum).addrs (Fin.last NDIRECT) ≠ 0 →
        ((s.markBit b).bzero b).disk ((s.inode inum).addrs (Fin.last NDIRECT)) =
          s.disk ((s.inode inum).addrs (Fin.last NDIRECT)) := fun inum ht hne => by
      have hh := State.holds_ind ht hne
      have h1 := h.ne_bblock hh hlt
      have h2 : (s.inode inum).addrs (Fin.last NDIRECT) ≠ b := fun he =>
        h.not_holds_of_free hfree inum NDIRECT (he ▸ hh)
      simp [State.bzero, State.markBit, State.setByte, Function.update_of_ne h1,
        Function.update_of_ne h2]
    refine ⟨h.of_frame rfl rfl hind fun y hy hy' => ?_,
      fun inum k ht => State.slot_congr k rfl (hind inum ht)⟩
    have := h.layout.2 y hy
    rw [State.bzero, State.isFree_setBlock _ _ (by simp; omega), State.isFree_markBit, hy']
    rfl

/-- What `balloc` hands out: 0, or a zeroed data block no one holds, now marked in use. -/
theorem Ok.balloc_fresh (h : Ok s) (hb : s.balloc.2 ≠ 0) :
    (∀ inum k, ¬ s.balloc.1.Holds inum k s.balloc.2) ∧
    s.balloc.1.sb = s.sb ∧ s.balloc.1.inode = s.inode ∧
    s.sb.dataStart ≤ s.balloc.2 ∧ s.balloc.2 < s.sb.size ∧ s.balloc.1.isFree s.balloc.2 = false ∧
    s.balloc.1.disk s.balloc.2 = fun _ => 0 := by
  rcases h.balloc_cases with hb' | ⟨b, hb', hfree, hdata, hlt, _⟩
  · rw [hb'] at hb
    exact absurd rfl hb
  · have hslot := (h.balloc).2
    rw [hb'] at hslot ⊢
    have := h.layout.2 b hlt
    refine ⟨fun inum k ⟨ht, hk, hs, hne⟩ => h.not_holds_of_free hfree inum k
      ⟨ht, hk, (hslot inum k ht) ▸ hs, hne⟩, rfl, rfl, hdata, hlt, ?_, by simp [State.bzero]⟩
    rw [State.bzero, State.isFree_setBlock _ _ (by simp; omega), State.isFree_markBit]
    simp

end Alloc

/-! ## Slots after a write -/

section Slots

variable {s : State}

theorem State.slot_setAddr_of_ne {inum j : Nat} (i : Fin (NDIRECT + 1)) (a k : Nat)
    (h : j ≠ inum) : (s.setAddr inum i a).slot j k = s.slot j k :=
  State.slot_congr k (by simp [State.setAddr, Function.update_of_ne h]) fun _ => rfl

/-- Filling an empty slot `i` of an inode; a new indirect block must be zeroed. -/
theorem State.slot_setAddr_fresh {inum b : Nat} {i : Fin (NDIRECT + 1)}
    (hi : (s.inode inum).addrs i = 0) (hz : i = Fin.last NDIRECT → s.disk b = fun _ => 0)
    (j k : Nat) :
    (s.setAddr inum i b).slot j k = if j = inum ∧ k = i.val then b else s.slot j k := by
  by_cases hj : j = inum
  · subst hj
    unfold State.slot
    by_cases hk : k < NDIRECT + 1
    · have hki : (⟨k, hk⟩ : Fin (NDIRECT + 1)) = i ↔ k = i.val := Fin.ext_iff
      simp only [dif_pos hk]
      by_cases hki' : k = i.val
      · simp [State.setAddr, hki']
      · simp [State.setAddr, hki', Function.update_of_ne (mt hki.mp hki')]
    · have hki : k ≠ i.val := fun he => hk (he ▸ i.isLt)
      by_cases hil : i = Fin.last NDIRECT
      · -- the new indirect block is zero, as the empty one read
        subst hil
        simp [State.setAddr, hk, hi, hz rfl]
        omega
      · simp [State.setAddr, hk, hki, Function.update_of_ne (Ne.symm hil)]
  · rw [if_neg (fun h' => hj h'.1)]
    exact State.slot_setAddr_of_ne i b k hj

/-- Writing a block other than an inode's indirect block leaves its slots alone. -/
theorem State.slot_setBlock_of_ne {inum blk : Nat} (v : Nat → UInt8) (k : Nat)
    (h : (s.inode inum).addrs (Fin.last NDIRECT) ≠ blk) :
    (s.setBlock blk v).slot inum k = s.slot inum k :=
  State.slot_congr k rfl fun _ => Function.update_of_ne h _ _

/-- Writing entry `j` of inode `inum`'s indirect block `ind` fills slot `NDIRECT + 1 + j`. -/
theorem State.slot_writeWord_self {inum ind j x : Nat} (hind : (s.inode inum).addrs (Fin.last NDIRECT) = ind)
    (hne : ind ≠ 0) (hx : x < 2 ^ 32) (k : Nat) :
    (s.writeWord ind j x).slot inum k = if k = NDIRECT + 1 + j then x else s.slot inum k := by
  unfold State.slot
  by_cases hk : k < NDIRECT + 1
  · simp [State.writeWord, hk, show k ≠ NDIRECT + 1 + j by omega]
  · simp only [dif_neg hk]
    by_cases hkj : k = NDIRECT + 1 + j
    · simp [State.writeWord, hkj, hind, hne, getWord_setWord_self _ _ hx]
    · simp [State.writeWord, hkj, hind, hne,
        getWord_setWord_of_ne _ _ (show k - (NDIRECT + 1) ≠ j by omega)]

end Slots

/-! ## Growing a file -/

/-- `s'` is `s` with blocks added or data written: the superblock, the types and sizes stay,
and no slot that held a block changes. -/
structure Grows (s s' : State) : Prop where
  sb : s'.sb = s.sb
  type : ∀ i, (s'.inode i).type = (s.inode i).type
  size : ∀ i, (s'.inode i).size = (s.inode i).size
  slot : ∀ i k, (s.inode i).type ≠ 0 → s.slot i k ≠ 0 → s'.slot i k = s.slot i k

theorem Grows.refl (s : State) : Grows s s := ⟨rfl, fun _ => rfl, fun _ => rfl, fun _ _ _ _ => rfl⟩

theorem Grows.trans {s₁ s₂ s₃ : State} (h₁ : Grows s₁ s₂) (h₂ : Grows s₂ s₃) : Grows s₁ s₃ where
  sb := h₂.sb.trans h₁.sb
  type i := (h₂.type i).trans (h₁.type i)
  size i := (h₂.size i).trans (h₁.size i)
  slot i k ht hk := by
    have h1 := h₁.slot i k ht hk
    rw [h₂.slot i k (by rw [h₁.type]; exact ht) (by rw [h1]; exact hk), h1]

/-- A block below the size stays there as a file grows. -/
theorem Grows.blockAt {s s' : State} (hg : Grows s s') {inum bn : Nat}
    (ht : (s.inode inum).type ≠ 0) (hb : s.blockAt inum bn ≠ 0) :
    s'.blockAt inum bn = s.blockAt inum bn :=
  hg.slot inum _ ht hb

section Bmap

variable {s : State} {inum : Nat}

/-- `balloc` grows nothing. -/
theorem Ok.balloc_grows (h : Ok s) : Grows s s.balloc.1 := by
  rcases h.balloc_cases with hb | ⟨b, hb, -⟩ <;> rw [hb]
  · exact Grows.refl s
  · exact ⟨rfl, fun _ => rfl, fun _ => rfl, fun i k ht _ => by
      have := (h.balloc).2 i k ht
      rw [hb] at this
      exact this⟩

/-- Filling an empty slot with what `balloc` handed out keeps `Ok`, grows, and puts the block
there. -/
theorem Ok.fill_balloc (h : Ok s) (s' : State) (inum k0 : Nat) (hb : s.balloc.2 ≠ 0)
    (hsb : s'.sb = s.sb) (htype : ∀ i, (s'.inode i).type = (s.inode i).type)
    (hsize : ∀ i, (s'.inode i).size = (s.inode i).size)
    (hslot : ∀ i k, (s.inode i).type ≠ 0 →
      s'.slot i k = if i = inum ∧ k = k0 then s.balloc.2 else s.balloc.1.slot i k)
    (hold : s.slot inum k0 = 0)
    (hfree : ∀ y, y < s.sb.size → s'.isFree y = s.balloc.1.isFree y) :
    Ok s' ∧ Grows s s' := by
  obtain ⟨hnew, hsb1, hi1, hdata⟩ := h.balloc_fresh hb
  have hslot1 := (h.balloc).2
  have hok1 := (h.balloc).1
  have ht1 : ∀ i, (s.balloc.1.inode i).type = (s.inode i).type := fun i => by rw [hi1]
  refine ⟨hok1.fill (hsb.trans hsb1.symm) (fun i => (htype i).trans (ht1 i).symm)
    (fun i => by rw [hsize, hi1]) (fun i k hti => hslot i k (by rw [← ht1]; exact hti))
    (fun y hy => hfree y (by rw [← hsb1]; exact hy)) hb hnew
    ⟨by rw [hsb1]; exact hdata.1, by rw [hsb1]; exact hdata.2.1, hdata.2.2.1⟩,
    ⟨hsb, htype, hsize, fun i k hti hk => ?_⟩⟩
  rw [hslot i k hti, hslot1 i k hti]
  -- the slot filled was empty
  split
  · rename_i hik
    rw [hik.1, hik.2] at hk
    exact absurd hold hk
  · rfl

/-- `addrOrAlloc`: the slot's block, or a fresh one put there, or 0 with the disk full. -/
theorem Ok.addrOrAlloc (h : Ok s) (inum : Nat) (i : Fin (NDIRECT + 1)) :
    Ok (s.addrOrAlloc inum i).1 ∧ Grows s (s.addrOrAlloc inum i).1 ∧
      ((s.addrOrAlloc inum i).2 ≠ 0 →
        ((s.addrOrAlloc inum i).1.inode inum).addrs i = (s.addrOrAlloc inum i).2) ∧
      ((s.inode inum).addrs i = 0 → (s.addrOrAlloc inum i).2 ≠ 0 →
        (s.addrOrAlloc inum i).1.disk (s.addrOrAlloc inum i).2 = fun _ => 0) := by
  unfold State.addrOrAlloc
  by_cases ha : (s.inode inum).addrs i = 0
  · simp only [ha, if_true]
    by_cases hb : s.balloc.2 = 0
    · simp only [hb, if_true]
      exact ⟨(h.balloc).1, h.balloc_grows, fun h0 => absurd rfl h0, fun _ h0 => absurd rfl h0⟩
    · simp only [hb, if_false]
      obtain ⟨_, hsb1, hi1, -, -, -, hz⟩ := h.balloc_fresh hb
      have hi : (s.balloc.1.inode inum).addrs i = 0 := by rw [hi1]; exact ha
      have hold : s.slot inum i.val = 0 := by
        unfold State.slot
        simp [i.isLt, ha]
      have hfill := h.fill_balloc _ inum i hb (by simp [State.setAddr, hsb1])
        (fun j => by by_cases hj : j = inum <;> simp [State.setAddr, hj, hi1])
        (fun j => by by_cases hj : j = inum <;> simp [State.setAddr, hj, hi1])
        (fun j k _ => State.slot_setAddr_fresh hi (fun _ => hz) j k) hold
        (fun y _ => State.isFree_congr rfl rfl)
      exact ⟨hfill.1, hfill.2, fun _ => by simp [State.setAddr], fun _ _ => by simp [State.setAddr, hz]⟩
  · rw [if_neg ha]
    exact ⟨h, Grows.refl s, fun _ => rfl, fun h0 => absurd h0 ha⟩

/-- Slot `NDIRECT + 1 + j` is entry `j` of the indirect block. -/
theorem State.slot_entry (s : State) {inum : Nat} (hind : (s.inode inum).addrs (Fin.last NDIRECT) ≠ 0)
    (j : Nat) :
    s.slot inum (NDIRECT + 1 + j) = getWord (s.disk ((s.inode inum).addrs (Fin.last NDIRECT))) j := by
  unfold State.slot
  rw [dif_neg (by omega)]
  simp [hind]

/-- `entryOrAlloc` on an inode's indirect block: the entry's block, or a fresh one put there, or 0
with the disk full. -/
theorem Ok.entryOrAlloc (h : Ok s) (inum : Nat) (ht : (s.inode inum).type ≠ 0) {ind : Nat}
    (hind : (s.inode inum).addrs (Fin.last NDIRECT) = ind) (hne : ind ≠ 0) (j : Nat) :
    Ok (s.entryOrAlloc ind j).1 ∧ Grows s (s.entryOrAlloc ind j).1 ∧
      ((s.entryOrAlloc ind j).2 ≠ 0 →
        (s.entryOrAlloc ind j).1.slot inum (NDIRECT + 1 + j) = (s.entryOrAlloc ind j).2) := by
  have hholds : s.Holds inum NDIRECT ind := hind ▸ State.holds_ind ht (hind ▸ hne)
  have hentry : s.slot inum (NDIRECT + 1 + j) = getWord (s.disk ind) j := by
    rw [State.slot_entry s (hind ▸ hne), hind]
  unfold State.entryOrAlloc
  by_cases hw : getWord (s.disk ind) j = 0
  · simp only [hw, if_true]
    by_cases hb : s.balloc.2 = 0
    · simp only [hb, if_true]
      exact ⟨(h.balloc).1, h.balloc_grows, fun h0 => absurd rfl h0⟩
    · simp only [hb, if_false]
      obtain ⟨_, hsb1, hi1, -, hlt, -⟩ := h.balloc_fresh hb
      have hind1 : (s.balloc.1.inode inum).addrs (Fin.last NDIRECT) = ind := by rw [hi1, hind]
      have hx : s.balloc.2 < 2 ^ 32 := Nat.lt_trans hlt h.layout.1
      -- no other inode in use shares the indirect block
      have hother : ∀ i, (s.inode i).type ≠ 0 → i ≠ inum →
          (s.balloc.1.inode i).addrs (Fin.last NDIRECT) ≠ ind := fun i hti hi he => by
        rw [hi1] at he
        have := h.unique i NDIRECT inum NDIRECT _ (he ▸ State.holds_ind hti (he ▸ hne)) hholds
        exact hi this.1
      have hfill := h.fill_balloc (s.balloc.1.writeWord ind j s.balloc.2) inum (NDIRECT + 1 + j)
        hb (by simp [State.writeWord, hsb1]) (fun i => by simp [State.writeWord, hi1])
        (fun i => by simp [State.writeWord, hi1])
        (fun i k hti => by
          by_cases hi : i = inum
          · subst hi
            rw [State.slot_writeWord_self hind1 hne hx]
            simp
          · rw [if_neg (fun h' => hi h'.1)]
            exact State.slot_setBlock_of_ne _ k (hother i hti hi))
        (by rw [hentry]; exact hw)
        (fun y hy => State.isFree_setBlock _ _ (by
          have := h.layout.2 y hy
          have := (h.held _ _ _ hholds).1
          rw [hsb1]
          omega))
      refine ⟨hfill.1, hfill.2, fun _ => ?_⟩
      rw [State.slot_writeWord_self hind1 hne hx, if_pos rfl]
  · simp only [hw, if_false]
    exact ⟨h, Grows.refl s, fun _ => hentry⟩

/-- `bmap` on a block that is there returns it and changes nothing. -/
theorem State.bmap_of_blockAt {bn : Nat} (hbn : bn < MAXFILE) (hb : s.blockAt inum bn ≠ 0) :
    s.bmap inum bn = .ok (s, s.blockAt inum bn) := by
  by_cases hd : bn < NDIRECT
  · have hslot : s.blockAt inum bn = (s.inode inum).addrs ⟨bn, Nat.lt_succ_of_lt hd⟩ := by
      simp [State.blockAt, dataSlot, hd, State.slot, Nat.lt_succ_of_lt hd]
    rw [hslot] at hb ⊢
    simp [State.bmap, hd, State.addrOrAlloc, hb]
  · have hk : dataSlot bn = NDIRECT + 1 + (bn - NDIRECT) := by unfold dataSlot; split <;> omega
    -- block `bn` is an entry, so the indirect block is there
    have hind : (s.inode inum).addrs (Fin.last NDIRECT) ≠ 0 := by
      intro h0
      apply hb
      have hk' : ¬ NDIRECT + 1 + (bn - NDIRECT) < NDIRECT + 1 := by omega
      simp [State.blockAt, hk, State.slot, hk', h0]
    rw [State.blockAt, hk, State.slot_entry s hind] at hb ⊢
    have hlt : bn - NDIRECT < NINDIRECT := by unfold MAXFILE at hbn; omega
    simp [State.bmap, hd, hlt, State.addrOrAlloc, hind, State.entryOrAlloc, hb]

/-- `bmap` below `MAXFILE` does not panic; it returns the block, now there, or 0 with the disk
full, and keeps `Ok`. -/
theorem Ok.bmap (h : Ok s) (ht : (s.inode inum).type ≠ 0) {bn : Nat} (hbn : bn < MAXFILE) :
    ∃ s' a, s.bmap inum bn = .ok (s', a) ∧ Ok s' ∧ Grows s s' ∧ (a ≠ 0 → s'.blockAt inum bn = a) := by
  by_cases hd : bn < NDIRECT
  · have hbmap : s.bmap inum bn = .ok (s.addrOrAlloc inum ⟨bn, Nat.lt_succ_of_lt hd⟩) := by
      simp [State.bmap, hd]
    obtain ⟨hok, hg, haddr, -⟩ := h.addrOrAlloc inum ⟨bn, Nat.lt_succ_of_lt hd⟩
    refine ⟨(s.addrOrAlloc inum ⟨bn, Nat.lt_succ_of_lt hd⟩).1,
      (s.addrOrAlloc inum ⟨bn, Nat.lt_succ_of_lt hd⟩).2, hbmap, hok, hg, fun ha => ?_⟩
    rw [← haddr ha]
    simp [State.blockAt, dataSlot, hd, State.slot, Nat.lt_succ_of_lt hd]
  · have hlt : bn - NDIRECT < NINDIRECT := by unfold MAXFILE at hbn; omega
    obtain ⟨hok, hg, haddr, -⟩ := h.addrOrAlloc inum (Fin.last NDIRECT)
    have hbmap : s.bmap inum bn =
        if (s.addrOrAlloc inum (Fin.last NDIRECT)).2 = 0 then
          .ok ((s.addrOrAlloc inum (Fin.last NDIRECT)).1, 0)
        else .ok ((s.addrOrAlloc inum (Fin.last NDIRECT)).1.entryOrAlloc
          (s.addrOrAlloc inum (Fin.last NDIRECT)).2 (bn - NDIRECT)) := by
      simp only [State.bmap, dif_neg hd, if_pos hlt]
    by_cases hr : (s.addrOrAlloc inum (Fin.last NDIRECT)).2 = 0
    · simp only [hr, if_true] at hbmap
      exact ⟨_, 0, hbmap, hok, hg, fun h0 => absurd rfl h0⟩
    · simp only [hr, if_false] at hbmap
      -- the indirect block is there now; look the entry up in it
      have ht' : ((s.addrOrAlloc inum (Fin.last NDIRECT)).1.inode inum).type ≠ 0 := by
        rw [hg.type]
        exact ht
      obtain ⟨hok', hg', hslot⟩ := hok.entryOrAlloc inum ht' (haddr hr) hr (bn - NDIRECT)
      -- name the result, so that no check has to look inside `entryOrAlloc`
      generalize (s.addrOrAlloc inum (Fin.last NDIRECT)).1.entryOrAlloc
        (s.addrOrAlloc inum (Fin.last NDIRECT)).2 (bn - NDIRECT) = q at hbmap hok' hg' hslot
      obtain ⟨s', a⟩ := q
      refine ⟨s', a, hbmap, hok', hg.trans hg', fun ha => ?_⟩
      have hj : dataSlot bn = NDIRECT + 1 + (bn - NDIRECT) := by unfold dataSlot; split <;> omega
      rw [State.blockAt, hj]
      exact hslot ha

end Bmap

/-! ## Steps that free -/

/-- `t` is `s` with no block marked in use but those of `F` freed, and the data blocks as they
were: what the bitmap writes of `bfree` leave. -/
structure Released (s t : State) (F : Nat → Prop) : Prop where
  sb : t.sb = s.sb
  data : ∀ b, s.sb.dataStart ≤ b → t.disk b = s.disk b
  free : ∀ y, t.isFree y = true → s.isFree y = true ∨ F y

theorem Released.refl (s : State) : Released s s fun _ => False :=
  ⟨rfl, fun _ _ => rfl, fun _ hy => .inl hy⟩

theorem Released.mono {s t : State} {F G : Nat → Prop} (hr : Released s t F)
    (hFG : ∀ y, F y → G y) : Released s t G :=
  ⟨hr.sb, hr.data, fun y hy => (hr.free y hy).imp_right (hFG y)⟩

/-- Writing the inode table frees nothing. -/
theorem Released.setInode {s t : State} {F : Nat → Prop} (hr : Released s t F) (inum : Nat)
    (d : Dinode) : Released s (t.setInode inum d) F :=
  ⟨hr.sb, hr.data, fun y hy => hr.free y (by rwa [State.isFree_congr rfl rfl] at hy)⟩

/-- A step that frees only blocks no one holds any more, keeps the others' slots, and leaves
every file's blocks there keeps `Ok`. -/
theorem Ok.of_release {s s' : State} {F : Nat → Prop} (h : Ok s) (hr : Released s s' F)
    (hF : ∀ y, F y → s.sb.dataStart ≤ y ∧ ∀ i k, ¬ s'.Holds i k y)
    (hheld : ∀ i k b, s'.Holds i k b → s.Holds i k b)
    (hmapped : ∀ i, (s'.inode i).type ≠ 0 → (s'.inode i).size ≤ MAXFILE * BSIZE ∧
      ∀ bn, bn * BSIZE < (s'.inode i).size → s'.blockAt i bn ≠ 0) : Ok s' := by
  refine ⟨by rw [hr.sb]; exact h.layout, fun y hy => ?_, fun i k b hh => ?_,
    fun i k i' k' b hh hh' => h.unique i k i' k' b (hheld i k b hh) (hheld i' k' b hh'), hmapped⟩
  · rw [hr.sb] at hy
    cases hfree : s'.isFree y
    · rfl
    · -- a metadata block was not free before, and nothing freed lies below the data
      rcases hr.free y hfree with hold | hFy
      · rw [h.metaUsed y hy] at hold
        cases hold
      · exact absurd (hF y hFy).1 (Nat.not_le.mpr hy)
  · obtain ⟨h1, h2, h3⟩ := h.held i k b (hheld i k b hh)
    refine ⟨hr.sb ▸ h1, hr.sb ▸ h2, ?_⟩
    cases hfree : s'.isFree b
    · rfl
    · rcases hr.free b hfree with hold | hFb
      · rw [h3] at hold
        cases hold
      · exact absurd hh ((hF b hFb).2 i k)

/-- `bfree` of a held block that is not yet freed: no panic, and one more block freed. -/
theorem Ok.bfree {s t : State} {F : Nat → Prop} (h : Ok s) (hr : Released s t F) {i k b : Nat}
    (hh : s.Holds i k b) (hF : ¬ F b) :
    t.bfree b = .ok (t.clearBit b) ∧ Released s (t.clearBit b) fun y => F y ∨ y = b := by
  obtain ⟨hdata, hlt, hused⟩ := h.held i k b hh
  have hbit : t.isFree b = false := by
    cases hfree : t.isFree b
    · rfl
    · rcases hr.free b hfree with hold | hFb
      · rw [hused] at hold
        cases hold
      · exact absurd hFb hF
  refine ⟨by simp [State.bfree, hbit], ⟨by rw [State.clearBit_sb, hr.sb], fun b' hb' => ?_,
    fun y hy => ?_⟩⟩
  · -- the bitmap block of `b` lies below the data
    have hbb := h.layout.2 b hlt
    rw [State.clearBit_disk_of_ne t b (by rw [hr.sb]; omega), hr.data b' hb']
  · rw [State.isFree_clearBit] at hy
    rcases Bool.or_eq_true_iff.mp hy with hy | hy
    · exact (hr.free y hy).imp_right Or.inl
    · exact .inr (.inr (of_decide_eq_true hy))

/-- `ip->size = sz` keeps every slot. -/
theorem State.slot_setSize (s : State) (inum sz i k : Nat) :
    (s.setSize inum sz).slot i k = s.slot i k := by
  by_cases hi : i = inum
  · subst hi
    unfold State.slot
    simp [State.setSize]
  · exact State.slot_congr k (by simp [State.setSize, Function.update_of_ne hi]) fun _ => rfl

/-- Setting a size whose blocks are all there keeps `Ok`. -/
theorem Ok.setSize {s : State} (h : Ok s) {inum sz : Nat} (hle : sz ≤ MAXFILE * BSIZE)
    (hmap : ∀ bn, bn * BSIZE < sz → s.blockAt inum bn ≠ 0) : Ok (s.setSize inum sz) := by
  have htype : ∀ i, ((s.setSize inum sz).inode i).type = (s.inode i).type := fun i => by
    by_cases hi : i = inum <;> simp [State.setSize, hi]
  have hsize : ∀ i, ((s.setSize inum sz).inode i).size = if i = inum then sz else
      (s.inode i).size := fun i => by
    by_cases hi : i = inum <;> simp [State.setSize, hi]
  refine h.of_release ((Released.refl s).setInode inum _) (fun _ hy => hy.elim)
    (fun i k b ⟨hti, hk, hs, hb⟩ => ⟨htype i ▸ hti, hk, State.slot_setSize s inum sz i k ▸ hs, hb⟩)
    (fun i hti => ?_)
  rw [htype] at hti
  rw [hsize]
  by_cases hi : i = inum
  · subst hi
    rw [if_pos rfl]
    exact ⟨hle, fun bn hbn => by
      rw [State.blockAt, State.slot_setSize]
      exact hmap bn hbn⟩
  · rw [if_neg hi]
    refine ⟨(h.mapped i hti).1, fun bn hbn => ?_⟩
    rw [State.blockAt, State.slot_setSize]
    exact (h.mapped i hti).2 bn hbn

/-! ## Reading and writing -/

section ReadWrite

variable {s : State} {inum : Nat}

/-- A block below the size is there, and `bmap` returns it unchanged. -/
theorem Ok.bmap_below (h : Ok s) (ht : (s.inode inum).type ≠ 0) {off : Nat}
    (hoff : off < (s.inode inum).size) :
    s.bmap inum (off / BSIZE) = .ok (s, s.blockAt inum (off / BSIZE)) ∧
      s.blockAt inum (off / BSIZE) ≠ 0 := by
  have hmap := h.mapped inum ht
  have hlow : off / BSIZE * BSIZE ≤ off := Nat.div_mul_le_self off BSIZE
  have hb := hmap.2 (off / BSIZE) (by omega)
  have hlt : off / BSIZE < MAXFILE := by
    have := hmap.1
    unfold BSIZE at *
    omega
  exact ⟨State.bmap_of_blockAt hlt hb, hb⟩

/-- The loop of `readi` over bytes below the size never panics and changes nothing on disk. -/
theorem Ok.readiLoop (h : Ok s) (ht : (s.inode inum).type ≠ 0) (k : Nat) :
    ∀ mem userDst dst off n tot, n - tot = k → off + (n - tot) ≤ (s.inode inum).size →
      ∃ mem' r, s.readiLoop inum mem userDst dst off n tot = .ok (s, mem', r) := by
  -- induction on the bytes left, as the loop's termination measure
  induction k using Nat.strong_induction_on with
  | _ k ih =>
    intro mem userDst dst off n tot hk hsz
    rw [State.readiLoop]
    by_cases htot : tot < n
    · obtain ⟨hbmap, hb⟩ := h.bmap_below ht (show off < (s.inode inum).size by omega)
      have hm : 0 < min (n - tot) (BSIZE - off % BSIZE) := by
        have : off % BSIZE < BSIZE := Nat.mod_lt _ (by decide)
        omega
      simp only [htot, if_true, hbmap, hb, if_false]
      split
      · exact ih _ (by omega) _ _ _ _ _ _ rfl (by omega)
      · exact ⟨_, _, rfl⟩
    · simp only [htot, if_false]
      exact ⟨mem, tot, rfl⟩

/-- `readi` never panics and changes nothing on disk, so it needs no transaction. -/
theorem Ok.readi (h : Ok s) (ht : (s.inode inum).type ≠ 0) (mem : Mem) (userDst : Bool)
    (dst off n : Nat) : ∃ mem' r, s.readi inum mem userDst dst off n = .ok (s, mem', r) := by
  unfold State.readi
  split
  · exact ⟨mem, 0, rfl⟩
  · rename_i hoff
    exact h.readiLoop ht _ mem userDst dst off _ 0 rfl (by split <;> omega)

/-- Writing a data block the inode holds keeps `Ok` and grows nothing. -/
theorem Ok.writeData (h : Ok s) {k a : Nat} (hh : s.Holds inum k a) (hk : k ≠ NDIRECT)
    (blk : Nat → UInt8) : Ok (s.setBlock a blk) ∧ Grows s (s.setBlock a blk) := by
  -- no inode in use has `a` as its indirect block
  have hind : ∀ i, (s.inode i).type ≠ 0 → (s.inode i).addrs (Fin.last NDIRECT) ≠ a :=
    fun i hti he => hk (h.unique inum k i NDIRECT a hh (he ▸ State.holds_ind hti (he ▸ hh.2.2.2))).2
  refine ⟨h.setBlock blk (h.held inum k a hh).1 hind, ⟨rfl, fun _ => rfl, fun _ => rfl,
    fun i k' hti _ => State.slot_setBlock_of_ne blk k' (hind i hti)⟩⟩

/-- The loop of `writei` below `MAXFILE` never panics, keeps `Ok` and grows the file; every block
below the offset it stops at is there. -/
theorem Ok.writeiLoop (inum k : Nat) :
    ∀ (t : State) mem userSrc src off n tot, n - tot = k → Ok t → (t.inode inum).type ≠ 0 →
      off + (n - tot) ≤ MAXFILE * BSIZE → (∀ bn, bn * BSIZE < off → t.blockAt inum bn ≠ 0) →
      ∃ t' tot' off', t.writeiLoop inum mem userSrc src off n tot = .ok (t', tot', off') ∧
        Ok t' ∧ Grows t t' ∧ off ≤ off' ∧ off' ≤ MAXFILE * BSIZE ∧
        ∀ bn, bn * BSIZE < off' → t'.blockAt inum bn ≠ 0 := by
  -- induction on the bytes left, as the loop's termination measure
  induction k using Nat.strong_induction_on with
  | _ k ih =>
    intro t mem userSrc src off n tot hk h ht hoff hbelow
    rw [State.writeiLoop]
    by_cases htot : tot < n
    · have hbn : off / BSIZE < MAXFILE := by unfold BSIZE at *; omega
      obtain ⟨t₁, a, hbmap, h₁, hg₁, ha⟩ := h.bmap ht hbn
      have hbelow₁ : ∀ bn, bn * BSIZE < off → t₁.blockAt inum bn ≠ 0 := fun bn hb => by
        rw [hg₁.blockAt ht (hbelow bn hb)]
        exact hbelow bn hb
      simp only [htot, if_true, hbmap]
      by_cases ha0 : a = 0
      · -- the disk is full: stop where the loop is
        simp only [ha0, if_true]
        exact ⟨t₁, tot, off, rfl, h₁, hg₁, le_refl _, by omega, hbelow₁⟩
      · simp only [ha0, if_false]
        have ht₁ : (t₁.inode inum).type ≠ 0 := by rw [hg₁.type]; exact ht
        have hholds : t₁.Holds inum (dataSlot (off / BSIZE)) a :=
          ⟨ht₁, dataSlot_lt hbn, ha ha0, ha0⟩
        have hm : off % BSIZE < BSIZE := Nat.mod_lt _ (by decide)
        -- the chunk ends inside block `off / BSIZE`
        have hchunk : ∀ bn, bn * BSIZE < off + min (n - tot) (BSIZE - off % BSIZE) →
            bn * BSIZE < off ∨ bn = off / BSIZE := fun bn hb => by
          unfold BSIZE at *
          omega
        generalize eitherCopyin mem (t₁.disk a) (off % BSIZE) userSrc src
          (min (n - tot) (BSIZE - off % BSIZE)) = r
        obtain ⟨h₂, hg₂⟩ := h₁.writeData hholds dataSlot_ne r.1
        have hbelow₂ : ∀ bn, bn * BSIZE < off → (t₁.setBlock a r.1).blockAt inum bn ≠ 0 :=
          fun bn hb => by
            rw [hg₂.blockAt ht₁ (hbelow₁ bn hb)]
            exact hbelow₁ bn hb
        split
        · have ht₂ : ((t₁.setBlock a r.1).inode inum).type ≠ 0 := by rw [hg₂.type]; exact ht₁
          have hlt : n - (tot + min (n - tot) (BSIZE - off % BSIZE)) < k := by omega
          obtain ⟨t', tot', off', hloop, h', hg', hle, hmax, hbelow'⟩ :=
            ih _ hlt (t₁.setBlock a r.1) mem userSrc (src + min (n - tot) (BSIZE - off % BSIZE))
              (off + min (n - tot) (BSIZE - off % BSIZE)) n
              (tot + min (n - tot) (BSIZE - off % BSIZE)) rfl h₂ ht₂ (by omega)
              (fun bn hb => by
                rcases hchunk bn hb with hb | rfl
                · exact hbelow₂ bn hb
                · rw [hg₂.blockAt ht₁ (by rw [ha ha0]; exact ha0), ha ha0]
                  exact ha0)
          exact ⟨t', tot', off', hloop, h', hg₁.trans (hg₂.trans hg'), by omega, hmax, hbelow'⟩
        · -- the copy failed: what it copied stays in the block
          exact ⟨_, tot, off, rfl, h₂, hg₁.trans hg₂, le_refl _, by omega, hbelow₂⟩
    · simp only [htot, if_false]
      exact ⟨t, tot, off, rfl, h, Grows.refl t, le_refl _, by omega, hbelow⟩

/-- `writei` never panics and keeps `Ok`, including when the disk fills up or the copy fails
partway. -/
theorem Ok.writei (h : Ok s) (ht : (s.inode inum).type ≠ 0) (mem : Mem) (userSrc : Bool)
    (src off n : Nat) : ∃ s' r, s.writei inum mem userSrc src off n = .ok (s', r) ∧ Ok s' := by
  unfold State.writei
  split
  · exact ⟨s, -1, rfl, h⟩
  · rename_i hoff
    split
    · exact ⟨s, -1, rfl, h⟩
    · rename_i hmax
      have hsize := (h.mapped inum ht).1
      obtain ⟨t, tot, off', hloop, ht', hg, hle, hmax', hbelow⟩ :=
        Ok.writeiLoop inum _ s mem userSrc src off n 0 rfl h ht (by omega)
          (fun bn hb => (h.mapped inum ht).2 bn (by omega))
      rw [hloop]
      dsimp only
      split
      · exact ⟨_, _, rfl, ht'.setSize hmax' hbelow⟩
      · exact ⟨_, _, rfl, ht'⟩

end ReadWrite

/-! ## Truncating -/

section Trunc

variable {s : State} {inum : Nat}

/-- Slot `k` of an inode whose addresses are all zero is empty. -/
theorem State.slot_of_addrs_zero {s : State} {i : Nat} (h : ∀ k, (s.inode i).addrs k = 0)
    (k : Nat) : s.slot i k = 0 := by
  unfold State.slot
  split
  · exact h _
  · simp [h]

/-- After a step that frees blocks, an inode in use whose record is unchanged keeps its slots:
its indirect block is a data block, which the step did not write. -/
theorem Ok.slot_of_released {t : State} {F : Nat → Prop} (h : Ok s) (hr : Released s t F)
    {i : Nat} (hi : t.inode i = s.inode i) (ht : (s.inode i).type ≠ 0) (k : Nat) :
    t.slot i k = s.slot i k :=
  State.slot_congr k hi fun hind => hr.data _ (h.held i NDIRECT _ (State.holds_ind ht hind)).1

/-- A step that empties inode `inum`, freeing what it held, and keeps every other inode keeps
`Ok`. -/
theorem Ok.of_emptied {s' : State} (h : Ok s) (inum : Nat)
    (hr : Released s s' fun y => ∃ k, s.Holds inum k y)
    (hother : ∀ j, j ≠ inum → s'.inode j = s.inode j) (hnone : ∀ k b, ¬ s'.Holds inum k b)
    (hsize : (s'.inode inum).type ≠ 0 → (s'.inode inum).size = 0) : Ok s' := by
  -- what `s'` holds, some other inode held in `s`
  have hheld : ∀ i k b, s'.Holds i k b → s.Holds i k b := fun i k b hh => by
    have hi : i ≠ inum := fun he => hnone k b (he ▸ hh)
    obtain ⟨hti, hk, hs, hb⟩ := hh
    rw [hother i hi] at hti
    exact ⟨hti, hk, (h.slot_of_released hr (hother i hi) hti k) ▸ hs, hb⟩
  refine h.of_release hr (fun y ⟨k, hk⟩ => ⟨(h.held inum k y hk).1, fun i k' hh' => ?_⟩) hheld
    (fun i hti => ?_)
  · have := h.unique inum k i k' y hk (hheld i k' y hh')
    exact hnone k' y (this.1 ▸ hh')
  · by_cases hi : i = inum
    · subst hi
      rw [hsize hti]
      exact ⟨Nat.zero_le _, fun bn hbn => absurd hbn (Nat.not_lt_zero _)⟩
    · rw [hother i hi] at hti ⊢
      refine ⟨(h.mapped i hti).1, fun bn hbn => ?_⟩
      rw [State.blockAt, h.slot_of_released hr (hother i hi) hti]
      exact (h.mapped i hti).2 bn hbn

/-- What `itrunc`'s first loop has done after the direct slots `pre`: they are zero and their
blocks freed, and nothing else has changed. -/
structure DirectDone (s : State) (inum : Nat) (pre : List (Fin NDIRECT)) (t : State) : Prop where
  released : Released s t fun y => ∃ i ∈ pre, (s.inode inum).addrs i.castSucc = y ∧ y ≠ 0
  other : ∀ j, j ≠ inum → t.inode j = s.inode j
  type : (t.inode inum).type = (s.inode inum).type
  nlink : (t.inode inum).nlink = (s.inode inum).nlink
  size : (t.inode inum).size = (s.inode inum).size
  addrs : ∀ k, (t.inode inum).addrs k =
    if k ∈ pre.map Fin.castSucc then 0 else (s.inode inum).addrs k

theorem DirectDone.init (s : State) (inum : Nat) : DirectDone s inum [] s :=
  ⟨(Released.refl s).mono fun _ h => h.elim, fun _ _ => rfl, rfl, rfl, rfl, fun _ => by simp⟩

/-- The slots of `pre` that `DirectDone` zeroes: the direct slot `i` is zeroed when `i ∈ pre`. -/
theorem mem_map_castSucc {pre : List (Fin NDIRECT)} {i : Fin NDIRECT} :
    i.castSucc ∈ pre.map Fin.castSucc ↔ i ∈ pre :=
  List.mem_map_of_injective (f := Fin.castSucc) fun a b hab => by
    have hval := congrArg Fin.val hab
    exact Fin.ext hval

/-- Slot `i < NDIRECT` is the direct block `i`. -/
theorem State.slot_direct (s : State) (inum : Nat) (i : Fin NDIRECT) :
    s.slot inum i.val = (s.inode inum).addrs i.castSucc := by
  unfold State.slot
  rw [dif_pos (by omega)]
  rfl

/-- One turn of `itrunc`'s first loop: free the direct block `x`, if any, and zero its slot. -/
theorem DirectDone.freeDirect {t : State} {pre : List (Fin NDIRECT)} (h : Ok s)
    (ht : (s.inode inum).type ≠ 0) (hd : DirectDone s inum pre t) {x : Fin NDIRECT} (hx : x ∉ pre) :
    ∃ t', t.freeDirect inum x = .ok t' ∧ DirectDone s inum (pre ++ [x]) t' := by
  have hax : (t.inode inum).addrs x.castSucc = (s.inode inum).addrs x.castSucc := by
    rw [hd.addrs, if_neg (mt mem_map_castSucc.mp hx)]
  -- the slots zeroed once `x` is done
  have haddrs : ∀ k, (if k ∈ (pre ++ [x]).map Fin.castSucc then 0 else (s.inode inum).addrs k) =
      if k = x.castSucc then (if (s.inode inum).addrs x.castSucc = 0 then 0 else 0)
      else (if k ∈ pre.map Fin.castSucc then 0 else (s.inode inum).addrs k) := fun k => by
    by_cases hk : k = x.castSucc
    · subst hk
      simp
    · simp [hk]
  unfold State.freeDirect
  by_cases ha : (s.inode inum).addrs x.castSucc = 0
  · simp only [hax, ha, ne_eq, not_true_eq_false, if_false]
    refine ⟨t, rfl, hd.released.mono fun y ⟨i, hi, hy⟩ => ⟨i, List.mem_append_left _ hi, hy⟩,
      hd.other, hd.type, hd.nlink, hd.size, fun k => ?_⟩
    rw [haddrs, hd.addrs]
    by_cases hk : k = x.castSucc
    · subst hk
      rw [if_pos rfl, ← ha, if_neg (mt mem_map_castSucc.mp hx)]
      simp
    · rw [if_neg hk]
  · -- the block is held by slot `x` alone, so it is not freed yet
    have hh : s.Holds inum x.val ((s.inode inum).addrs x.castSucc) :=
      ⟨ht, by unfold NSLOT; omega, State.slot_direct s inum x, ha⟩
    have hF : ¬ ∃ i ∈ pre, (s.inode inum).addrs i.castSucc = (s.inode inum).addrs x.castSucc ∧
        (s.inode inum).addrs x.castSucc ≠ 0 := fun ⟨i, hi, he, hne⟩ => by
      have hhi : s.Holds inum i.val ((s.inode inum).addrs x.castSucc) :=
        ⟨ht, by unfold NSLOT; omega, by rw [← he]; exact State.slot_direct s inum i, hne⟩
      have := (h.unique inum i.val inum x.val _ hhi hh).2
      exact hx (Fin.ext this ▸ hi)
    obtain ⟨hbfree, hr⟩ := h.bfree hd.released hh hF
    simp only [hax, ha, ne_eq, not_false_eq_true, if_true, hbfree, Except.map]
    refine ⟨_, rfl, ⟨(hr.setInode _ _).mono fun y hy => ?_, fun j hj => ?_, ?_, ?_, ?_, fun k => ?_⟩⟩
    · rcases hy with ⟨i, hi, hy⟩ | rfl
      · exact ⟨i, List.mem_append_left _ hi, hy⟩
      · exact ⟨x, List.mem_append_right _ (List.mem_singleton_self x), rfl, ha⟩
    · simp [State.setAddr, Function.update_of_ne hj, hd.other j hj]
    · simp [State.setAddr, hd.type]
    · simp [State.setAddr, hd.nlink]
    · simp [State.setAddr, hd.size]
    · simp only [State.setAddr, State.setInode_inode, Function.update_self, State.clearBit_inode]
      rw [haddrs]
      by_cases hk : k = x.castSucc
      · subst hk
        simp
      · rw [if_neg hk, Function.update_of_ne hk, hd.addrs]

/-- What `itrunc`'s loop over the indirect block has done after the entries `pre`, on top of all
direct blocks: their blocks are freed, and the inodes are as the first loop left them. -/
structure EntriesDone (s : State) (inum : Nat) (t₁ : State) (pre : List Nat) (t : State) :
    Prop where
  released : Released s t fun y =>
    (∃ i : Fin NDIRECT, (s.inode inum).addrs i.castSucc = y ∧ y ≠ 0) ∨
      ∃ j ∈ pre, getWord (s.disk ((s.inode inum).addrs (Fin.last NDIRECT))) j = y ∧ y ≠ 0
  inode : t.inode = t₁.inode

/-- One turn of the loop over the indirect block: free entry `j`'s block, if any. -/
theorem EntriesDone.freeEntry {t₁ t : State} {pre : List Nat} (h : Ok s)
    (ht : (s.inode inum).type ≠ 0) (hind : (s.inode inum).addrs (Fin.last NDIRECT) ≠ 0)
    (hd : EntriesDone s inum t₁ pre t) (hpre : ∀ j' ∈ pre, j' < NINDIRECT) {j : Nat}
    (hj : j < NINDIRECT) (hjpre : j ∉ pre) :
    ∃ t', t.freeEntry ((s.inode inum).addrs (Fin.last NDIRECT)) j = .ok t' ∧
      EntriesDone s inum t₁ (pre ++ [j]) t' := by
  have hholds := State.holds_ind ht hind
  -- the indirect block is a data block, so the loop reads it as it was
  have hdisk : t.disk ((s.inode inum).addrs (Fin.last NDIRECT)) =
      s.disk ((s.inode inum).addrs (Fin.last NDIRECT)) :=
    hd.released.data _ (h.held _ _ _ hholds).1
  have hmono : ∀ y, ((∃ i : Fin NDIRECT, (s.inode inum).addrs i.castSucc = y ∧ y ≠ 0) ∨
      ∃ j' ∈ pre, getWord (s.disk ((s.inode inum).addrs (Fin.last NDIRECT))) j' = y ∧ y ≠ 0) →
      (∃ i : Fin NDIRECT, (s.inode inum).addrs i.castSucc = y ∧ y ≠ 0) ∨
      ∃ j' ∈ pre ++ [j], getWord (s.disk ((s.inode inum).addrs (Fin.last NDIRECT))) j' = y ∧
        y ≠ 0 := fun y hy =>
    hy.imp_right fun ⟨j', hj', hy⟩ => ⟨j', List.mem_append_left _ hj', hy⟩
  unfold State.freeEntry
  by_cases ha : getWord (s.disk ((s.inode inum).addrs (Fin.last NDIRECT))) j = 0
  · simp only [hdisk, ha, ne_eq, not_true_eq_false, if_false]
    exact ⟨t, rfl, hd.released.mono hmono, hd.inode⟩
  · -- the block is held by entry `j` alone, so it is not freed yet
    have hh : s.Holds inum (NDIRECT + 1 + j)
        (getWord (s.disk ((s.inode inum).addrs (Fin.last NDIRECT))) j) :=
      ⟨ht, by unfold NSLOT; omega, State.slot_entry s hind j, ha⟩
    have hF : ¬ ((∃ i : Fin NDIRECT, (s.inode inum).addrs i.castSucc =
          getWord (s.disk ((s.inode inum).addrs (Fin.last NDIRECT))) j ∧
          getWord (s.disk ((s.inode inum).addrs (Fin.last NDIRECT))) j ≠ 0) ∨
        ∃ j' ∈ pre, getWord (s.disk ((s.inode inum).addrs (Fin.last NDIRECT))) j' =
          getWord (s.disk ((s.inode inum).addrs (Fin.last NDIRECT))) j ∧
          getWord (s.disk ((s.inode inum).addrs (Fin.last NDIRECT))) j ≠ 0) := by
      rintro (⟨i, he, hne⟩ | ⟨j', hj', he, hne⟩)
      · have hi : s.Holds inum i.val _ := ⟨ht, by unfold NSLOT; omega,
          (State.slot_direct s inum i).trans he, hne⟩
        have := (h.unique inum i.val inum (NDIRECT + 1 + j) _ hi hh).2
        omega
      · have hi : s.Holds inum (NDIRECT + 1 + j') _ := ⟨ht,
          by have := hpre j' hj'; unfold NSLOT; omega, (State.slot_entry s hind j').trans he, hne⟩
        have := (h.unique inum (NDIRECT + 1 + j') inum (NDIRECT + 1 + j) _ hi hh).2
        exact hjpre ((show j' = j by omega) ▸ hj')
    obtain ⟨hbfree, hr⟩ := h.bfree hd.released hh hF
    simp only [hdisk, ha, ne_eq, not_false_eq_true, if_true, hbfree]
    refine ⟨_, rfl, hr.mono fun y hy => ?_, by rw [State.clearBit_inode, hd.inode]⟩
    rcases hy with hy | rfl
    · exact hmono y hy
    · exact .inr ⟨j, List.mem_append_right _ (List.mem_singleton_self j), rfl, ha⟩

/-- What `itrunc` leaves: inode `inum` with no blocks and size 0, each block it held freed, and
everything else as it was. -/
structure Truncated (s : State) (inum : Nat) (s' : State) : Prop where
  released : Released s s' fun y => ∃ k, s.Holds inum k y
  other : ∀ j, j ≠ inum → s'.inode j = s.inode j
  type : (s'.inode inum).type = (s.inode inum).type
  nlink : (s'.inode inum).nlink = (s.inode inum).nlink
  size : (s'.inode inum).size = 0
  addrs : ∀ k, (s'.inode inum).addrs k = 0

/-- A slot of the inode is a direct one or the indirect one. -/
theorem Fin.castSucc_or_last (k : Fin (NDIRECT + 1)) :
    (∃ i : Fin NDIRECT, k = i.castSucc) ∨ k = Fin.last NDIRECT := by
  by_cases hk : k.val < NDIRECT
  · exact .inl ⟨⟨k.val, hk⟩, Fin.ext rfl⟩
  · exact .inr (Fin.ext (by simp only [Fin.val_last]; omega))

/-- The last step of `itrunc`, `ip->size = 0`, on a state whose inode has no blocks left and
whose freed blocks were the inode's. -/
theorem Truncated.setSize {t : State} (hr : Released s t fun y => ∃ k, s.Holds inum k y)
    (hother : ∀ j, j ≠ inum → t.inode j = s.inode j)
    (htype : (t.inode inum).type = (s.inode inum).type)
    (hnlink : (t.inode inum).nlink = (s.inode inum).nlink)
    (haddrs : ∀ k, (t.inode inum).addrs k = 0) : Truncated s inum (t.setSize inum 0) where
  released := hr.setInode _ _
  other j hj := by simp [State.setSize, Function.update_of_ne hj, hother j hj]
  type := by simp [State.setSize, htype]
  nlink := by simp [State.setSize, hnlink]
  size := by simp [State.setSize]
  addrs k := by simp [State.setSize, haddrs k]

/-- `itrunc` of an inode in use never panics ("freeing free block" included) and empties it. -/
theorem Ok.itrunc (h : Ok s) (ht : (s.inode inum).type ≠ 0) :
    ∃ s', s.itrunc inum = .ok s' ∧ Truncated s inum s' := by
  -- the loop over the direct blocks
  obtain ⟨t₁, hloop₁, hd₁⟩ := foldlM_ok_of_inv (DirectDone s inum) (l := List.finRange NDIRECT)
    (fun pre x post t hl hd => hd.freeDirect h ht (not_mem_pre_of_nodup (List.nodup_finRange _) hl))
    (DirectDone.init s inum)
  have hdir : ∀ i : Fin NDIRECT, (t₁.inode inum).addrs i.castSucc = 0 := fun i => by
    rw [hd₁.addrs, if_pos (mem_map_castSucc.mpr (List.mem_finRange i))]
  have hlast : (t₁.inode inum).addrs (Fin.last NDIRECT) = (s.inode inum).addrs (Fin.last NDIRECT) := by
    rw [hd₁.addrs, if_neg]
    simp only [List.mem_map, not_exists, not_and]
    intro i _ hi
    have := congrArg Fin.val hi
    simp only [Fin.val_castSucc, Fin.val_last] at this
    omega
  -- a freed direct block was held by its slot
  have hheldDir : ∀ y, (∃ i : Fin NDIRECT, (s.inode inum).addrs i.castSucc = y ∧ y ≠ 0) →
      ∃ k, s.Holds inum k y := fun y ⟨i, he, hne⟩ =>
    ⟨i.val, ht, by unfold NSLOT; omega, (State.slot_direct s inum i).trans he, hne⟩
  have hdirOnly : ∀ y, (∃ i ∈ List.finRange NDIRECT, (s.inode inum).addrs i.castSucc = y ∧ y ≠ 0) →
      ∃ i : Fin NDIRECT, (s.inode inum).addrs i.castSucc = y ∧ y ≠ 0 :=
    fun y ⟨i, _, hy⟩ => ⟨i, hy⟩
  simp only [State.itrunc, hloop₁, bind, Except.bind]
  unfold State.freeIndirect
  by_cases hind : (s.inode inum).addrs (Fin.last NDIRECT) = 0
  · simp only [hlast, hind, ne_eq, not_true_eq_false, if_false, pure, Except.pure]
    refine ⟨_, rfl, Truncated.setSize (hd₁.released.mono fun y hy => hheldDir y (hdirOnly y hy))
      hd₁.other hd₁.type hd₁.nlink fun k => ?_⟩
    rcases Fin.castSucc_or_last k with ⟨i, rfl⟩ | rfl
    · exact hdir i
    · rw [hlast, hind]
  · have hholds := State.holds_ind ht hind
    -- the loop over the entries of the indirect block
    obtain ⟨t₂, hloop₂, hd₂⟩ := foldlM_ok_of_inv (EntriesDone s inum t₁) (l := List.range NINDIRECT)
      (fun pre j post t hl hd => hd.freeEntry h ht hind
        (fun j' hj' => List.mem_range.mp (hl ▸ List.mem_append_left _ hj'))
        (List.mem_range.mp (hl ▸ List.mem_append_right _ List.mem_cons_self))
        (not_mem_pre_of_nodup List.nodup_range hl))
      ⟨hd₁.released.mono fun y hy => .inl (hdirOnly y hy), rfl⟩
    -- the indirect block itself is not freed yet
    have hF : ¬ ((∃ i : Fin NDIRECT, (s.inode inum).addrs i.castSucc =
          (s.inode inum).addrs (Fin.last NDIRECT) ∧ (s.inode inum).addrs (Fin.last NDIRECT) ≠ 0) ∨
        ∃ j ∈ List.range NINDIRECT, getWord (s.disk ((s.inode inum).addrs (Fin.last NDIRECT))) j =
          (s.inode inum).addrs (Fin.last NDIRECT) ∧ (s.inode inum).addrs (Fin.last NDIRECT) ≠ 0) := by
      rintro (⟨i, he, hne⟩ | ⟨j, hj, he, hne⟩)
      · have := (h.unique inum i.val inum NDIRECT _
          ⟨ht, by unfold NSLOT; omega, (State.slot_direct s inum i).trans he, hne⟩ hholds).2
        omega
      · have := (h.unique inum (NDIRECT + 1 + j) inum NDIRECT _
          ⟨ht, by have := List.mem_range.mp hj; unfold NSLOT; omega,
            (State.slot_entry s hind j).trans he, hne⟩ hholds).2
        omega
    obtain ⟨hbfree, hr⟩ := h.bfree hd₂.released hholds hF
    simp only [hlast, hind, ne_eq, not_false_eq_true, if_true]
    -- a `simp` through the loop would make the kernel unfold it; rewrite it as a whole
    rw [hloop₂]
    simp only [bind, Except.bind, hbfree, pure, Except.pure]
    have hi₂ : ((t₂.clearBit ((s.inode inum).addrs (Fin.last NDIRECT))).setAddr inum
        (Fin.last NDIRECT) 0).inode = Function.update t₁.inode inum
          { t₁.inode inum with addrs := Function.update (t₁.inode inum).addrs (Fin.last NDIRECT) 0 } := by
      simp [State.setAddr, hd₂.inode]
    refine ⟨_, rfl, Truncated.setSize ((hr.setInode _ _).mono fun y hy => ?_) (fun j hj => ?_)
      ?_ ?_ fun k => ?_⟩
    · rcases hy with (hy | ⟨j, hj, he, hne⟩) | rfl
      · exact hheldDir y hy
      · exact ⟨NDIRECT + 1 + j, ht, by have := List.mem_range.mp hj; unfold NSLOT; omega,
          (State.slot_entry s hind j).trans he, hne⟩
      · exact ⟨NDIRECT, hholds⟩
    · rw [hi₂, Function.update_of_ne hj, hd₁.other j hj]
    · rw [hi₂, Function.update_self, hd₁.type]
    · rw [hi₂, Function.update_self, hd₁.nlink]
    · rw [hi₂, Function.update_self]
      show Function.update (t₁.inode inum).addrs (Fin.last NDIRECT) 0 k = 0
      by_cases hk : k = Fin.last NDIRECT
      · subst hk
        exact Function.update_self _ _ _
      · rw [Function.update_of_ne hk]
        rcases Fin.castSucc_or_last k with ⟨i, rfl⟩ | hk'
        · exact hdir i
        · exact absurd hk' hk

/-- An inode without blocks holds nothing. -/
theorem Truncated.not_holds {s' : State} (htr : Truncated s inum s') (k b : Nat) :
    ¬ s'.Holds inum k b := fun ⟨_, _, hs, hb⟩ =>
  hb (hs ▸ State.slot_of_addrs_zero htr.addrs k)

/-- `itrunc` keeps `Ok`. -/
theorem Ok.truncated {s' : State} (h : Ok s) (htr : Truncated s inum s') : Ok s' :=
  h.of_emptied inum htr.released htr.other htr.not_holds fun _ => htr.size

/-- `iput` of an inode in use never panics and keeps `Ok`; the last reference to an inode
without links frees its blocks and the inode. -/
theorem Ok.iput (h : Ok s) (ht : (s.inode inum).type ≠ 0) (last : Bool) :
    ∃ s', s.iput inum last = .ok s' ∧ Ok s' := by
  unfold State.iput
  split
  · obtain ⟨t, hitrunc, htr⟩ := h.itrunc ht
    rw [hitrunc]
    -- the inode's type goes to 0, so it holds nothing
    have hnone : ∀ k b, ¬ (t.setInode inum { t.inode inum with type := 0 }).Holds inum k b :=
      fun k b ⟨hti, _⟩ => hti (by simp)
    refine ⟨_, rfl, h.of_emptied inum (htr.released.setInode _ _) (fun j hj => ?_) hnone
      fun hti => absurd (by simp) hti⟩
    simp [Function.update_of_ne hj, htr.other j hj]
  · exact ⟨s, rfl, h⟩

/-- `ialloc` keeps `Ok`: the inode it hands out holds nothing. -/
theorem Ok.ialloc (h : Ok s) (type : Int16) : Ok (s.ialloc type).1 := by
  unfold State.ialloc
  split
  · rename_i inum _
    have hinode : ((s.setInode inum ⟨type, 0, 0, fun _ => 0⟩).inode inum) = ⟨type, 0, 0, fun _ => 0⟩ :=
      by simp
    refine h.of_emptied inum (((Released.refl s).setInode _ _).mono fun _ hy => hy.elim)
      (fun j hj => by simp [Function.update_of_ne hj]) (fun k b ⟨_, _, hs, hb⟩ => hb ?_)
      fun _ => by rw [hinode]
    rw [← hs]
    exact State.slot_of_addrs_zero (by rw [hinode]; exact fun _ => rfl) k
  · exact h

end Trunc

end Xv6.Fs
