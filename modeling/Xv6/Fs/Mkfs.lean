import Xv6.Fs.Alloc
import Xv6.Log.Basic

/-!
# Xv6.Fs.Mkfs — `mkfs/mkfs.c`

`mkfs` writes the image the kernel boots from: a root directory holding `.`, `..` and one entry
for each file named on its command line, each file's content appended to an inode of its own.
Blocks come from a counter, `freeblock`, that starts at the first data block and only goes up,
inodes from `freeinode`; at the end the bitmap marks every block below `freeblock`, and the
root's size is rounded up.

While the root's entries fit in its direct blocks, `iappend` keeps it dense: its blocks are
exactly those below its size (`Dense`, `Mkfs.iappendLoop_dense`). The rounding,
`off = ((off/BSIZE) + 1) * BSIZE`, adds a whole block when the size already is a multiple of
`BSIZE`, and allocates nothing. So the root has a block missing below its size exactly when its
entries fill a whole number of blocks (`mkfs_root_mapped_iff`); the image then breaks the
kernel's `Ok` (`mkfs_root_not_ok`), and the kernel's `readi` of that block allocates one
(`mkfs_root_hole`).

The image is the kernel's `State`: the superblock as `readsb` reads it, the blocks, and the
dinodes as `winode` writes them. Block 1, the superblock's bytes, is not written, since `State`
holds the superblock itself. A file on the command line is its name and its bytes; `read` of a
regular file returns `BSIZE` bytes until fewer are left.
-/

namespace Xv6.Fs

open Xv6.Lib

/-! ## The layout -/

/-- `ROOTINO` of `fs.h`: the root directory's inode. -/
def ROOTINO : Nat := 1

/-- `DIRSIZ` of `fs.h`. -/
def DIRSIZ : Nat := 14

/-- `T_DIR` of `stat.h`. -/
def T_DIR : Int16 := 1

/-- `T_FILE` of `stat.h`. -/
def T_FILE : Int16 := 2

/-- `FSSIZE` of `param.h`: the size of the image in blocks. -/
def FSSIZE : Nat := 2000

/-- `NINODES` of `mkfs.c`. -/
def NINODES : Nat := 200

/-- `IPB` of `fs.h`: dinodes per block, a `struct dinode` being 64 bytes. -/
def IPB : Nat := BSIZE / 64

/-- `nbitmap` of `mkfs.c`: bitmap blocks. -/
def nbitmap : Nat := FSSIZE / BPB + 1

/-- `ninodeblocks` of `mkfs.c`. -/
def ninodeblocks : Nat := NINODES / IPB + 1

/-- `nlog` of `mkfs.c`: the log header and `LOGBLOCKS` log blocks. -/
def nlog : Nat := Xv6.Log.LOGBLOCKS + 1

/-- `nmeta` of `mkfs.c`: boot block, superblock, log, inode blocks and bitmap. -/
def nmeta : Nat := 2 + nlog + ninodeblocks + nbitmap

/-- `nblocks` of `mkfs.c`: data blocks. -/
def nblocks : Nat := FSSIZE - nmeta

/-- `sb` as `main` fills it, in the fields `State` keeps. -/
def mkfsSb : Superblock where
  size := FSSIZE
  nblocks := nblocks
  ninodes := NINODES
  bmapstart := 2 + nlog + ninodeblocks

/-- The image after `wsect(i, zeroes)` for every block: all zeros, so every dinode is free. -/
def blankImage : State where
  sb := mkfsSb
  disk := fun _ _ => 0
  inode := fun _ => ⟨0, 0, 0, fun _ => 0⟩

/-! ## The allocators and `iappend` -/

/-- The globals of `mkfs.c` that change as it runs, with the image written so far. -/
structure Mkfs where
  img : State
  freeinode : Nat
  freeblock : Nat

/-- `ialloc`: inode `freeinode++`, a zeroed dinode of type `type` with one link. -/
def Mkfs.ialloc (m : Mkfs) (type : Int16) : Mkfs × Nat :=
  ({ m with img := m.img.setInode m.freeinode ⟨type, 1, 0, fun _ => 0⟩,
            freeinode := m.freeinode + 1 }, m.freeinode)

/-- `rsect`: reading a block past the end of the image file fails, and `mkfs` dies. Blocks are
handed out in increasing order and read before they are first written, so whenever a block is
read the file ends at block `FSSIZE`. -/
def rsect (img : State) (b : Nat) : Except String (Nat → UInt8) :=
  if b < FSSIZE then .ok (img.disk b) else .error "read"

/-- `if(xint(din.addrs[i]) == 0) din.addrs[i] = xint(freeblock++);`, and the block there. -/
def Mkfs.directBlock (m : Mkfs) (din : Dinode) (i : Fin (NDIRECT + 1)) : Mkfs × Dinode × Nat :=
  if din.addrs i = 0 then
    ({ m with freeblock := m.freeblock + 1 },
      { din with addrs := Function.update din.addrs i m.freeblock }, m.freeblock)
  else (m, din, din.addrs i)

/-- The block that holds block `fbn` of `din`: a direct block, or an entry of the indirect block,
each allocated when it is 0. -/
def Mkfs.blockFor (m : Mkfs) (din : Dinode) (fbn : Nat) : Except String (Mkfs × Dinode × Nat) :=
  if h : fbn < NDIRECT then .ok (m.directBlock din ⟨fbn, Nat.lt_succ_of_lt h⟩)
  else
    let r := m.directBlock din (Fin.last NDIRECT)
    match rsect r.1.img r.2.2 with
    | .error e => .error e
    | .ok indirect =>
      if getWord indirect (fbn - NDIRECT) = 0 then
        .ok ({ r.1 with
                img := r.1.img.setBlock r.2.2 (setWord indirect (fbn - NDIRECT) r.1.freeblock),
                freeblock := r.1.freeblock + 1 }, r.2.1, r.1.freeblock)
      else .ok (r.1, r.2.1, getWord indirect (fbn - NDIRECT))

/-- The loop of `iappend` on the dinode `din` that `rinode` read, from byte `off`, with the
bytes `p` left to append: the state, the dinode and `off` when it ends. -/
def Mkfs.iappendLoop (m : Mkfs) (din : Dinode) (off : Nat) (p : List UInt8) :
    Except String (Mkfs × Dinode × Nat) :=
  if hp : p = [] then .ok (m, din, off)
  else if off / BSIZE < MAXFILE then
    match m.blockFor din (off / BSIZE) with
    | .error e => .error e
    | .ok (m, din, x) =>
      let n1 := min p.length ((off / BSIZE + 1) * BSIZE - off)
      match rsect m.img x with
      | .error e => .error e
      | .ok buf =>
        let m := { m with
          img := m.img.setBlock x (copyBytes buf (off - off / BSIZE * BSIZE) (p.getD · 0) n1) }
        m.iappendLoop din (off + n1) (p.drop n1)
  else .error "assert fbn < MAXFILE"
termination_by p.length
decreasing_by
  have hlen : 0 < p.length := List.length_pos_iff.mpr hp
  have hblk : off < (off / BSIZE + 1) * BSIZE := by
    unfold BSIZE
    omega
  simp only [List.length_drop]
  omega

/-- `iappend(inum, p, n)`: `rinode`, the loop, and `winode` of the dinode with its new size. -/
def Mkfs.iappend (m : Mkfs) (inum : Nat) (p : List UInt8) : Except String Mkfs :=
  match m.iappendLoop (m.img.inode inum) (m.img.inode inum).size p with
  | .error e => .error e
  | .ok (m, din, off) => .ok { m with img := m.img.setInode inum { din with size := off } }

/-- `while((cc = read(fd, buf, sizeof(buf))) > 0) iappend(inum, buf, cc);` -/
def Mkfs.appendContent (m : Mkfs) (inum : Nat) : List UInt8 → Except String Mkfs
  | [] => .ok m
  | b :: rest =>
    match m.iappend inum ((b :: rest).take BSIZE) with
    | .error e => .error e
    | .ok m => m.appendContent inum ((b :: rest).drop BSIZE)
termination_by content => content.length
decreasing_by
  simp only [List.length_drop, List.length_cons, BSIZE]
  omega

/-! ## `main` -/

/-- A `struct dirent`: `inum` as a little-endian `ushort`, then `name` cut or padded with zeros
to `DIRSIZ` bytes, as `strncpy` leaves it. -/
def dirent (inum : Nat) (name : List UInt8) : List UInt8 :=
  [inum.toUInt8, (inum / 256).toUInt8] ++ (name ++ List.replicate DIRSIZ 0).take DIRSIZ

/-- The bytes of `"user/"`. -/
def userDir : List UInt8 := ['u', 's', 'e', 'r', '/'].map Char.toUInt8

/-- The name `main` gives `argv[i]`: a leading `"user/"` removed, the assertion that no `/` is
left, a leading `_` removed, and the assertion that at most `DIRSIZ` bytes are left. -/
def shortname (arg : List UInt8) : Except String (List UInt8) :=
  let s := if arg.take 5 = userDir then arg.drop 5 else arg
  if '/'.toUInt8 ∈ s then .error "assert index(shortname, slash) == 0"
  else
    let s := if s.head? = some '_'.toUInt8 then s.drop 1 else s
    if s.length ≤ DIRSIZ then .ok s else .error "assert strlen(shortname) <= DIRSIZ"

/-- One turn of `main`'s loop over the files, each a name and its bytes: a fresh inode, its entry
in the root, and the content. -/
def Mkfs.addFile (m : Mkfs) (file : List UInt8 × List UInt8) : Except String Mkfs :=
  match shortname file.1 with
  | .error e => .error e
  | .ok name =>
    let r := m.ialloc T_FILE
    match r.1.iappend ROOTINO (dirent r.2 name) with
    | .error e => .error e
    | .ok m => m.appendContent r.2 file.2

/-- The root's size rounded: `off = ((off/BSIZE) + 1) * BSIZE`. -/
def Mkfs.fixRoot (m : Mkfs) : Mkfs :=
  { m with img := m.img.setSize ROOTINO (((m.img.inode ROOTINO).size / BSIZE + 1) * BSIZE) }

/-- The bitmap block `balloc(used)` writes: `buf[i/8] |= 0x1 << (i%8)` for every `i < used`. -/
def bitmapBlock (used : Nat) : Nat → UInt8 :=
  (List.range used).foldl
    (fun buf i => Function.update buf (i / 8) (buf (i / 8) ||| (1 : UInt8) <<< (i % 8).toUInt8))
    fun _ => 0

/-- `balloc(used)`: the blocks below `used` marked in use, in the first bitmap block. -/
def Mkfs.balloc (m : Mkfs) (used : Nat) : Except String Mkfs :=
  if used < BPB then .ok { m with img := m.img.setBlock m.img.sb.bmapstart (bitmapBlock used) }
  else .error "assert used < BPB"

/-- `main`, from the files named after the image: the image it writes, or the assertion that
stops it. -/
def mkfs (files : List (List UInt8 × List UInt8)) : Except String State :=
  let r := (Mkfs.mk blankImage 1 nmeta).ialloc T_DIR
  if r.2 ≠ ROOTINO then .error "assert rootino == ROOTINO"
  else
    match r.1.iappend r.2 (dirent r.2 ['.'.toUInt8]) with
    | .error e => .error e
    | .ok m =>
      match m.iappend r.2 (dirent r.2 ['.'.toUInt8, '.'.toUInt8]) with
      | .error e => .error e
      | .ok m =>
        match files.foldlM Mkfs.addFile m with
        | .error e => .error e
        | .ok m => (m.fixRoot.balloc m.freeblock).map Mkfs.img

/-! ## What `iappend` changes -/

/-- What a turn of `iappend`'s loop changes: blocks, and `freeblock`, which only grows. -/
structure Mkfs.Adds (m m' : Mkfs) : Prop where
  inode : m'.img.inode = m.img.inode
  sb : m'.img.sb = m.img.sb
  freeinode : m'.freeinode = m.freeinode
  freeblock : m.freeblock ≤ m'.freeblock

theorem Mkfs.Adds.refl (m : Mkfs) : m.Adds m := ⟨rfl, rfl, rfl, le_rfl⟩

theorem Mkfs.Adds.trans {m₁ m₂ m₃ : Mkfs} (h₁ : m₁.Adds m₂) (h₂ : m₂.Adds m₃) : m₁.Adds m₃ :=
  ⟨h₂.inode.trans h₁.inode, h₂.sb.trans h₁.sb, h₂.freeinode.trans h₁.freeinode,
    h₁.freeblock.trans h₂.freeblock⟩

/-- Writing a block is such a change. -/
theorem Mkfs.adds_setBlock (m : Mkfs) (b : Nat) (blk : Nat → UInt8) :
    m.Adds { m with img := m.img.setBlock b blk } :=
  ⟨rfl, rfl, rfl, le_rfl⟩

theorem Mkfs.directBlock_adds (m : Mkfs) (din : Dinode) (i : Fin (NDIRECT + 1)) :
    m.Adds (m.directBlock din i).1 := by
  unfold Mkfs.directBlock
  split
  · exact ⟨rfl, rfl, rfl, Nat.le_succ _⟩
  · exact Mkfs.Adds.refl m

theorem Mkfs.blockFor_adds {m : Mkfs} {din : Dinode} {fbn : Nat} {r : Mkfs × Dinode × Nat}
    (h : m.blockFor din fbn = .ok r) : m.Adds r.1 := by
  unfold Mkfs.blockFor at h
  split at h
  · cases h
    exact m.directBlock_adds din _
  · have hd := m.directBlock_adds din (Fin.last NDIRECT)
    dsimp only at h
    split at h
    · cases h
    · split at h
      · cases h
        exact hd.trans ⟨rfl, rfl, rfl, Nat.le_succ _⟩
      · cases h
        exact hd

theorem Mkfs.iappendLoop_adds {m : Mkfs} {din : Dinode} {off : Nat} {p : List UInt8}
    {r : Mkfs × Dinode × Nat} (h : m.iappendLoop din off p = .ok r) : m.Adds r.1 := by
  fun_induction Mkfs.iappendLoop m din off p with
  | case1 m din off =>
    cases h
    exact .refl m
  | case2 | case3 | case5 => cases h
  | case4 m din off p hp hfbn m₁ din₁ x hb n1 buf hr m₂ ih =>
    exact (Mkfs.blockFor_adds hb).trans ((m₁.adds_setBlock _ _).trans (ih h))

/-- What `iappend` on inode `inum` changes: that inode, blocks, and `freeblock`, which only
grows. -/
structure Mkfs.Keeps (inum : Nat) (m m' : Mkfs) : Prop where
  inode : ∀ j, j ≠ inum → m'.img.inode j = m.img.inode j
  sb : m'.img.sb = m.img.sb
  freeinode : m'.freeinode = m.freeinode
  freeblock : m.freeblock ≤ m'.freeblock

theorem Mkfs.Keeps.refl (inum : Nat) (m : Mkfs) : m.Keeps inum m :=
  ⟨fun _ _ => rfl, rfl, rfl, le_rfl⟩

theorem Mkfs.Keeps.trans {inum : Nat} {m₁ m₂ m₃ : Mkfs} (h₁ : m₁.Keeps inum m₂)
    (h₂ : m₂.Keeps inum m₃) : m₁.Keeps inum m₃ :=
  ⟨fun j hj => (h₂.inode j hj).trans (h₁.inode j hj), h₂.sb.trans h₁.sb,
    h₂.freeinode.trans h₁.freeinode, h₁.freeblock.trans h₂.freeblock⟩

/-- `iappend` writes back the dinode its loop built, with the size the loop reached. -/
theorem Mkfs.iappend_eq {m m' : Mkfs} {inum : Nat} {p : List UInt8} (h : m.iappend inum p = .ok m') :
    ∃ m₁ din off, m.iappendLoop (m.img.inode inum) (m.img.inode inum).size p = .ok (m₁, din, off) ∧
      m' = { m₁ with img := m₁.img.setInode inum { din with size := off } } := by
  unfold Mkfs.iappend at h
  split at h
  · cases h
  · rename_i m₁ din off hloop
    cases h
    exact ⟨m₁, din, off, hloop, rfl⟩

theorem Mkfs.iappend_keeps {m m' : Mkfs} {inum : Nat} {p : List UInt8}
    (h : m.iappend inum p = .ok m') : m.Keeps inum m' := by
  obtain ⟨m₁, din, off, hloop, rfl⟩ := Mkfs.iappend_eq h
  have ha := Mkfs.iappendLoop_adds hloop
  refine ⟨fun j hj => ?_, ha.sb, ha.freeinode, ha.freeblock⟩
  show Function.update m₁.img.inode inum _ j = m.img.inode j
  rw [Function.update_of_ne hj, ha.inode]

theorem Mkfs.appendContent_keeps {m m' : Mkfs} {inum : Nat} {content : List UInt8}
    (h : m.appendContent inum content = .ok m') : m.Keeps inum m' := by
  fun_induction Mkfs.appendContent m inum content with
  | case1 m =>
    cases h
    exact .refl inum _
  | case2 m b rest e hi => cases h
  | case3 m b rest m₁ hi ih => exact (Mkfs.iappend_keeps hi).trans (ih h)

/-! ## Dense dinodes -/

/-- `din`'s blocks are exactly its direct blocks below byte `off`: the shape `iappend` keeps
while a content fits in the direct blocks. -/
def Dense (din : Dinode) (off : Nat) : Prop :=
  off ≤ NDIRECT * BSIZE ∧ ∀ k : Fin (NDIRECT + 1), din.addrs k ≠ 0 ↔ k.val * BSIZE < off

/-- Moving the end of a content forward within the block that holds byte `off` moves no other
block across it, nor that block when `off` is inside it. -/
theorem mul_lt_iff_of_same_block {k off off' : Nat} (hk : k ≠ off / BSIZE ∨ off % BSIZE ≠ 0)
    (h₁ : off < off') (h₂ : off' ≤ (off / BSIZE + 1) * BSIZE) :
    k * BSIZE < off ↔ k * BSIZE < off' := by
  unfold BSIZE at *
  omega

/-- Block `off / BSIZE` of a dense dinode, allocated if it is not there, is not 0, and the
dinode is dense up to any byte of that block past `off`. -/
theorem Mkfs.directBlock_dense {m : Mkfs} {din : Dinode} {off off' : Nat} (hd : Dense din off)
    (hfb : 0 < m.freeblock) (hblk : off / BSIZE < NDIRECT) (h₁ : off < off')
    (h₂ : off' ≤ (off / BSIZE + 1) * BSIZE) (h₃ : off' ≤ NDIRECT * BSIZE) :
    (m.directBlock din ⟨off / BSIZE, Nat.lt_succ_of_lt hblk⟩).2.2 ≠ 0 ∧
      Dense (m.directBlock din ⟨off / BSIZE, Nat.lt_succ_of_lt hblk⟩).2.1 off' := by
  unfold Mkfs.directBlock
  split
  · -- the block was not there: it is the fresh `freeblock`, and `off` is where it starts
    dsimp only
    refine ⟨Nat.pos_iff_ne_zero.mp hfb, h₃, fun k => ?_⟩
    by_cases hk : k = ⟨off / BSIZE, Nat.lt_succ_of_lt hblk⟩
    · subst hk
      have hstart : off / BSIZE * BSIZE < off' := by
        unfold BSIZE at *
        omega
      simpa [Nat.pos_iff_ne_zero.mp hfb] using hstart
    · show Function.update din.addrs _ m.freeblock k ≠ 0 ↔ _
      rw [Function.update_of_ne hk, hd.2 k]
      exact mul_lt_iff_of_same_block (.inl fun h => hk (Fin.ext h)) h₁ h₂
  · -- the block was there, so `off` is inside it
    rename_i hnz
    have hin : off / BSIZE * BSIZE < off := (hd.2 ⟨off / BSIZE, Nat.lt_succ_of_lt hblk⟩).mp hnz
    have hmod : off % BSIZE ≠ 0 := by
      unfold BSIZE at *
      omega
    refine ⟨hnz, h₃, fun k => ?_⟩
    exact (hd.2 k).trans (mul_lt_iff_of_same_block (.inr hmod) h₁ h₂)

theorem Mkfs.directBlock_type (m : Mkfs) (din : Dinode) (i : Fin (NDIRECT + 1)) :
    (m.directBlock din i).2.1.type = din.type := by
  unfold Mkfs.directBlock
  split <;> rfl

/-- The loop of `iappend` on a dense dinode whose content still fits in its direct blocks ends
at `off + p.length`, with the dinode dense there and of the same type. -/
theorem Mkfs.iappendLoop_dense {m : Mkfs} {din : Dinode} {off : Nat} {p : List UInt8}
    {r : Mkfs × Dinode × Nat} (hd : Dense din off) (hfb : 0 < m.freeblock)
    (hfit : off + p.length ≤ NDIRECT * BSIZE) (h : m.iappendLoop din off p = .ok r) :
    r.2.2 = off + p.length ∧ Dense r.2.1 r.2.2 ∧ r.2.1.type = din.type := by
  fun_induction Mkfs.iappendLoop m din off p with
  | case1 m din off =>
    cases h
    exact ⟨rfl, hd, rfl⟩
  | case2 | case3 | case5 => cases h
  | case4 m din off p hp hfbn m₁ din₁ x hb n1 buf hr m₂ ih =>
    have hlen : 0 < p.length := List.length_pos_iff.mpr hp
    have hblk : off / BSIZE < NDIRECT := by
      unfold BSIZE NDIRECT at *
      omega
    -- the block is a direct one
    have hdir : m.blockFor din (off / BSIZE) =
        .ok (m.directBlock din ⟨off / BSIZE, Nat.lt_succ_of_lt hblk⟩) := by
      unfold Mkfs.blockFor
      rw [dif_pos hblk]
    have hdb := Except.ok.inj (hdir.symm.trans hb)
    have hn1 : off < off + n1 ∧ off + n1 ≤ (off / BSIZE + 1) * BSIZE := by
      have hend : off < (off / BSIZE + 1) * BSIZE := by
        unfold BSIZE
        omega
      simp only [n1]
      omega
    obtain ⟨-, hd₁⟩ := Mkfs.directBlock_dense hd hfb hblk hn1.1 hn1.2 (by simp only [n1]; omega)
    have hty₁ := m.directBlock_type din ⟨off / BSIZE, Nat.lt_succ_of_lt hblk⟩
    rw [hdb] at hd₁ hty₁
    have hfb₂ : 0 < m₂.freeblock := Nat.lt_of_lt_of_le hfb (Mkfs.blockFor_adds hb).freeblock
    obtain ⟨hoff, hd', hty⟩ := ih hd₁ hfb₂ (by simp only [List.length_drop, n1]; omega) h
    refine ⟨?_, hd', hty.trans hty₁⟩
    rw [hoff, List.length_drop]
    simp only [n1]
    omega

/-- `iappend` on a dense inode whose content still fits in its direct blocks leaves it dense,
`p.length` bytes longer, and of the same type. -/
theorem Mkfs.iappend_dense {m m' : Mkfs} {inum : Nat} {p : List UInt8}
    (hd : Dense (m.img.inode inum) (m.img.inode inum).size) (hfb : 0 < m.freeblock)
    (hfit : (m.img.inode inum).size + p.length ≤ NDIRECT * BSIZE)
    (h : m.iappend inum p = .ok m') :
    (m'.img.inode inum).size = (m.img.inode inum).size + p.length ∧
      Dense (m'.img.inode inum) ((m.img.inode inum).size + p.length) ∧
      (m'.img.inode inum).type = (m.img.inode inum).type := by
  obtain ⟨m₁, din, off, hloop, rfl⟩ := Mkfs.iappend_eq h
  obtain ⟨hoff, hd', hty⟩ := Mkfs.iappendLoop_dense hd hfb hfit hloop
  dsimp only at hoff hd' hty
  simp only [State.setInode_inode, Function.update_self]
  rw [← hoff]
  exact ⟨rfl, hd', hty⟩

/-- A `struct dirent` is 16 bytes. -/
theorem dirent_length (inum : Nat) (name : List UInt8) : (dirent inum name).length = 16 := by
  simp [dirent, DIRSIZ]

/-- Every block below `e`, rounded past the next multiple of `BSIZE`, is below `e` exactly when
`e` is not a multiple of `BSIZE`. -/
theorem below_round_up_iff (e : Nat) :
    (∀ bn, bn * BSIZE < (e / BSIZE + 1) * BSIZE → bn * BSIZE < e) ↔ e % BSIZE ≠ 0 := by
  constructor
  · intro h
    have hlast := h (e / BSIZE) (by unfold BSIZE; omega)
    unfold BSIZE at *
    omega
  · intro he bn hbn
    have hle : bn ≤ e / BSIZE := Nat.lt_succ_iff.mp (Nat.lt_of_mul_lt_mul_right hbn)
    unfold BSIZE at *
    omega

/-- In an image, the blocks of a dense inode that `bmap` finds without allocating are exactly
those below `off`. -/
theorem Dense.blockAt {s : State} {inum off : Nat} (hd : Dense (s.inode inum) off) (bn : Nat) :
    s.blockAt inum bn ≠ 0 ↔ bn * BSIZE < off := by
  unfold State.blockAt State.slot dataSlot
  by_cases hbn : bn < NDIRECT
  · rw [if_pos hbn, dif_pos (Nat.lt_succ_of_lt hbn)]
    exact hd.2 ⟨bn, Nat.lt_succ_of_lt hbn⟩
  · -- past the direct blocks: a dense inode has no indirect block
    have hind : (s.inode inum).addrs (Fin.last NDIRECT) = 0 := by
      by_contra hne
      have hlt := (hd.2 (Fin.last NDIRECT)).mp hne
      have hle := hd.1
      simp only [Fin.val_last] at hlt
      omega
    have hfar : ¬ bn * BSIZE < off := by
      have hle := hd.1
      have : NDIRECT * BSIZE ≤ bn * BSIZE := Nat.mul_le_mul_right _ (Nat.le_of_not_lt hbn)
      omega
    rw [if_neg hbn, dif_neg (by omega)]
    simp only [hind, if_true, ne_eq, not_true_eq_false, hfar]

/-! ## The root -/

/-- What `main` keeps of the root while it adds files, after `k` of them: a directory, dense
with `k + 2` entries, and both counters past what it uses. -/
structure RootOk (m : Mkfs) (k : Nat) : Prop where
  type : (m.img.inode ROOTINO).type = T_DIR
  size : (m.img.inode ROOTINO).size = 16 * (k + 2)
  dense : Dense (m.img.inode ROOTINO) (16 * (k + 2))
  freeinode : ROOTINO < m.freeinode
  freeblock : 0 < m.freeblock

/-- A turn of `main`'s loop adds one entry to the root and keeps it dense, while the entries fit
in its direct blocks. -/
theorem RootOk.addFile {m m' : Mkfs} {k : Nat} {file : List UInt8 × List UInt8} (hr : RootOk m k)
    (hfit : 16 * (k + 3) ≤ NDIRECT * BSIZE) (h : m.addFile file = .ok m') : RootOk m' (k + 1) := by
  unfold Mkfs.addFile at h
  split at h
  · cases h
  · dsimp only at h
    split at h
    · cases h
    · rename_i m₁ happ
      -- the new inode is not the root
      have hne : ROOTINO ≠ m.freeinode := Nat.ne_of_lt hr.freeinode
      have hroot : (m.ialloc T_FILE).1.img.inode ROOTINO = m.img.inode ROOTINO :=
        Function.update_of_ne hne _ _
      have hd₀ : Dense ((m.ialloc T_FILE).1.img.inode ROOTINO)
          ((m.ialloc T_FILE).1.img.inode ROOTINO).size := by
        rw [hroot, hr.size]
        exact hr.dense
      obtain ⟨hsz, hd, hty⟩ := Mkfs.iappend_dense hd₀ hr.freeblock
        (by rw [hroot, hr.size, dirent_length]; omega) happ
      have hka := Mkfs.iappend_keeps happ
      have hkc := Mkfs.appendContent_keeps h
      -- the content goes to the new inode, and leaves the root as its entry left it
      have hroot' : m'.img.inode ROOTINO = m₁.img.inode ROOTINO := hkc.inode ROOTINO hne
      rw [hroot, hr.size, dirent_length] at hsz hd
      rw [hroot] at hty
      refine ⟨?_, ?_, ?_, ?_, ?_⟩
      · rw [hroot', hty, hr.type]
      · rw [hroot', hsz]
        omega
      · rw [hroot', show 16 * (k + 1 + 2) = 16 * (k + 2) + 16 by omega]
        exact hd
      · rw [hkc.freeinode, hka.freeinode]
        exact Nat.lt_succ_of_lt hr.freeinode
      · exact Nat.lt_of_lt_of_le hr.freeblock (hka.freeblock.trans hkc.freeblock)

/-- The root as `main` leaves it: the rounding changes its size, and the bitmap no inode. -/
theorem Mkfs.fixRoot_balloc_root {m : Mkfs} {used : Nat} {s : State}
    (h : (m.fixRoot.balloc used).map Mkfs.img = .ok s) :
    s.inode ROOTINO =
      { m.img.inode ROOTINO with size := ((m.img.inode ROOTINO).size / BSIZE + 1) * BSIZE } := by
  unfold Mkfs.balloc at h
  split at h
  · cases h
    simp [Mkfs.fixRoot, State.setSize]
  · cases h

/-- The root `main` starts from: an empty directory, dense at 0, with `freeblock` at the first
data block. -/
theorem rootOk_start {m₁ m₂ : Mkfs}
    (h₁ : ((Mkfs.mk blankImage 1 nmeta).ialloc T_DIR).1.iappend ROOTINO (dirent ROOTINO ['.'.toUInt8]) = .ok m₁)
    (h₂ : m₁.iappend ROOTINO (dirent ROOTINO ['.'.toUInt8, '.'.toUInt8]) = .ok m₂) :
    RootOk m₂ 0 := by
  have hd₀ : Dense (((Mkfs.mk blankImage 1 nmeta).ialloc T_DIR).1.img.inode ROOTINO) 0 :=
    ⟨Nat.zero_le _, fun k => by simp [Mkfs.ialloc, ROOTINO]⟩
  obtain ⟨hsz₁, hd₁, hty₁⟩ := Mkfs.iappend_dense hd₀ (by decide) (by decide) h₁
  have hfb₁ : 0 < m₁.freeblock := Nat.lt_of_lt_of_le (by decide) (Mkfs.iappend_keeps h₁).freeblock
  rw [dirent_length] at hsz₁ hd₁
  obtain ⟨hsz₂, hd₂, hty₂⟩ := Mkfs.iappend_dense (by rw [hsz₁]; exact hd₁) hfb₁
    (by rw [hsz₁, dirent_length]; decide) h₂
  have hk₂ := Mkfs.iappend_keeps h₂
  rw [hsz₁, dirent_length] at hsz₂ hd₂
  refine ⟨?_, hsz₂, hd₂, ?_, Nat.lt_of_lt_of_le hfb₁ hk₂.freeblock⟩
  · rw [hty₂, hty₁]
    rfl
  · rw [hk₂.freeinode, (Mkfs.iappend_keeps h₁).freeinode]
    decide

/-- The root of every image `mkfs` writes from files whose entries fit in the root's direct
blocks: a directory whose blocks are exactly those below its entries, with its size rounded
past the next multiple of `BSIZE`. -/
theorem mkfs_root {files : List (List UInt8 × List UInt8)} {s : State}
    (hfit : 16 * (files.length + 2) ≤ NDIRECT * BSIZE) (h : mkfs files = .ok s) :
    (s.inode ROOTINO).type = T_DIR ∧
      (s.inode ROOTINO).size = (16 * (files.length + 2) / BSIZE + 1) * BSIZE ∧
      Dense (s.inode ROOTINO) (16 * (files.length + 2)) := by
  unfold mkfs at h
  dsimp only at h
  split at h
  · cases h
  · split at h
    · cases h
    · rename_i m₁ h₁
      split at h
      · cases h
      · rename_i m₂ h₂
        split at h
        · cases h
        · rename_i m₃ h₃
          -- the loop over the files adds one dense entry a turn
          have hloop : RootOk m₃ files.length := by
            refine foldlM_inv_of_ok (fun pre m => RootOk m pre.length) ?_ (rootOk_start h₁ h₂) h₃
            intro pre x post b b' hl hb hx
            have hlen : files.length = pre.length + 1 + post.length := by
              rw [hl, List.length_append, List.length_cons]
              omega
            rw [List.length_append, List.length_singleton]
            exact hb.addFile (by omega) hx
          rw [Mkfs.fixRoot_balloc_root h, hloop.size]
          exact ⟨hloop.type, rfl, hloop.dense⟩

/-- Below the size `mkfs` gives the root, every block is there exactly when the entries do not
fill a whole number of blocks. -/
theorem mkfs_root_mapped_iff {files : List (List UInt8 × List UInt8)} {s : State}
    (hfit : 16 * (files.length + 2) ≤ NDIRECT * BSIZE) (h : mkfs files = .ok s) :
    (∀ bn, bn * BSIZE < (s.inode ROOTINO).size → s.blockAt ROOTINO bn ≠ 0) ↔
      16 * (files.length + 2) % BSIZE ≠ 0 := by
  obtain ⟨-, hsize, hd⟩ := mkfs_root hfit h
  rw [hsize]
  simp only [hd.blockAt]
  exact below_round_up_iff _

/-- So when the entries fill a whole number of blocks, the image breaks the kernel's `Ok`. -/
theorem mkfs_root_not_ok {files : List (List UInt8 × List UInt8)} {s : State}
    (hfit : 16 * (files.length + 2) ≤ NDIRECT * BSIZE)
    (hfull : 16 * (files.length + 2) % BSIZE = 0) (h : mkfs files = .ok s) : ¬ Ok s := by
  intro hok
  have hdir : (s.inode ROOTINO).type ≠ 0 := by
    rw [(mkfs_root hfit h).1]
    decide
  exact (mkfs_root_mapped_iff hfit h).mp (hok.mapped ROOTINO hdir).2 hfull

/-! ## The failing input -/

/-- Sixty-two empty files, `f00` to `f61`. -/
def sixtyTwoFiles : List (List UInt8 × List UInt8) :=
  (List.range 62).map fun i => (['f'.toUInt8, (48 + i / 10).toUInt8, (48 + i % 10).toUInt8], [])

/-- `dirlookup`'s buffer `de` is in the kernel: `readi` copies with `user_dst = 0`. -/
def kernelDst : Mem where
  mapped := fun _ => false
  writable := fun _ => false
  user := fun _ => 0
  kernel := fun _ => 0

/-- From sixty-two files `mkfs` writes a root of 64 entries, exactly one block, and rounds its
size up to two blocks; the second is not there and block 48 is free. The image breaks `Ok`, and
the kernel's `readi` of the root's second block, as `dirlookup` issues it while only reading,
allocates block 48 for it. -/
theorem mkfs_root_hole :
    (∀ s, mkfs sixtyTwoFiles = .ok s → ¬ Ok s) ∧
    (mkfs sixtyTwoFiles).map (fun s => ((s.inode ROOTINO).size, s.blockAt ROOTINO 1,
      s.isFree 48)) = .ok (2 * BSIZE, 0, true) ∧
    ((mkfs sixtyTwoFiles).bind fun s =>
      (s.readi ROOTINO kernelDst false 0 BSIZE 16).map fun r =>
        (r.1.blockAt ROOTINO 1, r.1.isFree 48)) = .ok (48, false) :=
  ⟨fun _ => mkfs_root_not_ok (by decide) (by decide), by decide +kernel⟩

end Xv6.Fs
