import Xv6.Lib.Crash

/-!
# Xv6.Log.Basic — the disk side of `kernel/log.c`

The on-disk log is a header block at `log.start`, holding a `struct logheader`, followed by
`LOGBLOCKS` log blocks. `commit` and `recover_from_log` are modelled as the lists of
single-block writes they issue, each computed from the disk as it stands when it is issued; a
crash stops such a list after any number of writes (`Xv6.Lib.Crash`). Reads go to the disk:
the buffer cache holds what was last written or read, so a `bread` returns what the disk
holds, except for blocks a transaction has modified, whose cached contents are `cache`.
-/

namespace Xv6.Log

open Xv6.Lib

/-- `MAXOPBLOCKS` of `param.h`: the most blocks one file-system operation writes. -/
def MAXOPBLOCKS : Nat := 10

/-- `LOGBLOCKS` of `param.h`: the most data blocks in the on-disk log. -/
def LOGBLOCKS : Nat := MAXOPBLOCKS * 3

/-- `struct logheader`. `block` is read beyond `LOGBLOCKS` nowhere: every loop over it stops at
`n`. The counts are `int`s that are never negative. -/
structure Header where
  n : Nat
  block : Nat → Nat

/-- `log.lh` at boot: `struct log log` is zeroed. -/
def Header.zero : Header := ⟨0, fun _ => 0⟩

variable {α : Type*}

/-- The disk. The header block at `log.start` is read and written only as a `struct logheader`
(`read_head`, `write_head`), so it is kept as one, in `head`; every other block is in
`block`. -/
structure Disk (α : Type*) where
  head : Header
  block : Nat → α

/-- `bwrite` of block `b` with contents `x`: one atomic single-block write. -/
def Disk.bwrite (d : Disk α) (b : Nat) (x : α) : Disk α :=
  { d with block := Function.update d.block b x }

@[simp] theorem Disk.bwrite_head (d : Disk α) (b : Nat) (x : α) : (d.bwrite b x).head = d.head :=
  rfl

/-- `write_log`: copy each logged block from the cache to its log block. -/
def writeLog (start : Nat) (lh : Header) (cache : Nat → α) : List (Disk α → Disk α) :=
  loop lh.n fun tail d => d.bwrite (start + tail + 1) (cache (lh.block tail))

/-- `write_head`: the header block takes `n` and the first `n` entries of `lh`. -/
def writeHead (lh : Header) (d : Disk α) : Disk α :=
  { d with head := { n := lh.n, block := fun i => if i < lh.n then lh.block i else d.head.block i } }

@[simp] theorem writeHead_block (lh : Header) (d : Disk α) : (writeHead lh d).block = d.block :=
  rfl

@[simp] theorem writeHead_n (lh : Header) (d : Disk α) : (writeHead lh d).head.n = lh.n :=
  rfl

/-- `read_head`: `log.lh` takes `n` and the first `n` entries of the header block. -/
def readHead (lh : Header) (d : Disk α) : Header :=
  { n := d.head.n, block := fun i => if i < d.head.n then d.head.block i else lh.block i }

/-- `install_trans`: copy each logged block from its log block to its home. -/
def installTrans (start : Nat) (lh : Header) : List (Disk α → Disk α) :=
  loop lh.n fun tail d => d.bwrite (lh.block tail) (d.block (start + tail + 1))

/-- `commit`: write the log, commit it by writing the header, install, then erase the
transaction by writing a header with `n = 0`. -/
def commit (start : Nat) (lh : Header) (cache : Nat → α) : List (Disk α → Disk α) :=
  if 0 < lh.n then
    writeLog start lh cache ++ [writeHead lh] ++ installTrans start lh ++
      [writeHead { lh with n := 0 }]
  else []

/-- `recover_from_log` on disk `d`, with `log.lh` holding `lh`: after `read_head`, install what
the header commits and clear it. -/
def recoverFromLog (start : Nat) (lh : Header) (d : Disk α) : List (Disk α → Disk α) :=
  installTrans start (readHead lh d) ++ [writeHead { readHead lh d with n := 0 }]

end Xv6.Log
