import Xv6.Lib.DList
import Xv6.Log.Basic

/-!
# Xv6.Bio.Basic — the buffer cache of `kernel/bio.c`

`bcache` holds `NBUF` buffers on a circular doubly linked list through `bcache.head`
(`Xv6.Lib.DList`), most recently used first. Every function below runs inside `bcache.lock`, so
each is one step. A buffer's sleep-lock is not modelled: a process that `bget` returned a buffer
to counts as holding it, whether or not it has the sleep-lock yet, and only a holder uses the
buffer (`bread`'s disk read, `bpin`, `bunpin`, `brelse`), as the interface at the top of `bio.c`
asks and as `log_write` and `install_trans` do.

The buffers each process holds, the pins, and when each buffer was last released are history
variables, not in the source. Block contents, `disk` and the disk itself are left out: no step
here reads them.
-/

namespace Xv6.Bio

open Xv6.Lib

/-- `NBUF` of `param.h`: the size of the disk block cache. -/
def NBUF : Nat := Xv6.Log.MAXOPBLOCKS * 3

instance : NeZero NBUF := ⟨by decide⟩

/-- The fields of `struct buf` that `bio.c` reads and writes, besides `prev` and `next`. The
counts are `uint`s; `refcnt` never goes below zero (`Xv6.Bio.Ok.refcnt_eq`). -/
structure Buf where
  valid : Bool
  dev : Nat
  blockno : Nat
  refcnt : Nat
  deriving DecidableEq

/-- A buffer as boot finds it: `bcache` is zeroed. -/
def Buf.zero : Buf := ⟨false, 0, 0, 0⟩

/-- Two buffers carry the same block. -/
def Buf.Same (x y : Buf) : Prop := x.dev = y.dev ∧ x.blockno = y.blockno

/-- The cache, who holds which buffer, and the history variables. -/
structure Sys (ι : Type*) where
  buf : Fin NBUF → Buf
  links : Links (Fin NBUF)
  /-- The buffers process `c` obtained through `bget` and has not passed to `brelse`. -/
  held : ι → List (Fin NBUF)
  /-- `bpin` calls not yet undone by `bunpin`. -/
  pins : Fin NBUF → Nat
  /-- `brelse` calls so far. -/
  clock : Nat
  /-- `clock` at each buffer's last `brelse`; `0` for none. -/
  released : Fin NBUF → Nat
  panicked : Option String

/-- What process `c` does next. -/
inductive Act where
  /-- `bget(dev, blockno)`, the first half of `bread`. -/
  | bget (dev blockno : Nat)
  /-- The rest of `bread`: read the block from disk if the buffer is not valid, and set
  `valid`. -/
  | fill (b : Fin NBUF)
  | brelse (b : Fin NBUF)
  | bpin (b : Fin NBUF)
  | bunpin (b : Fin NBUF)

variable {ι : Type*}

/-- `bget`'s first loop: from `head.next` along `next`, the buffer carrying `blockno` of `dev`.
It stops at `bcache.head`, after at most `NBUF` buffers (`Xv6.Lib.Links.Forms.scan_next`). -/
def Sys.lookup (s : Sys ι) (dev blockno : Nat) : Option (Fin NBUF) :=
  Links.scan s.links.next (fun b => (s.buf b).dev == dev && (s.buf b).blockno == blockno) NBUF
    (s.links.next none)

/-- `bget`'s second loop: from `head.prev` along `prev`, a buffer with `refcnt == 0`. -/
def Sys.victim (s : Sys ι) : Option (Fin NBUF) :=
  Links.scan s.links.prev (fun b => (s.buf b).refcnt == 0) NBUF (s.links.prev none)

/-- `bget`: the buffer returned and the buffers after it, or `none` for
`panic("bget: no buffers")`. -/
def Sys.bget (s : Sys ι) (dev blockno : Nat) : Option (Fin NBUF × (Fin NBUF → Buf)) :=
  match s.lookup dev blockno with
  | some b => some (b, Function.update s.buf b { s.buf b with refcnt := (s.buf b).refcnt + 1 })
  | none =>
    match s.victim with
    | some b =>
      -- recycle the least recently used unused buffer
      some (b, Function.update s.buf b
        { s.buf b with dev := dev, blockno := blockno, valid := false, refcnt := 1 })
    | none => none

/-- `b->refcnt` becomes `f b->refcnt`. -/
def Sys.setRefcnt (s : Sys ι) (b : Fin NBUF) (f : Nat → Nat) : Sys ι :=
  { s with buf := Function.update s.buf b { s.buf b with refcnt := f (s.buf b).refcnt } }

/-- `brelse` once the sleep-lock is released: one reference fewer, and a buffer no one
references any more moves to the front, as the most recently used. -/
def Sys.brelse (s : Sys ι) (b : Fin NBUF) : Sys ι :=
  let s := s.setRefcnt b (· - 1)
  if (s.buf b).refcnt = 0 then { s with links := (s.links.unlink b).pushFront b } else s

/-- `bpin`. -/
def Sys.bpin (s : Sys ι) (b : Fin NBUF) : Sys ι := s.setRefcnt b (· + 1)

/-- `bunpin`: unlike `brelse`, the buffer stays where it is on the list. -/
def Sys.bunpin (s : Sys ι) (b : Fin NBUF) : Sys ι := s.setRefcnt b (· - 1)

/-- `panic(msg)`. -/
def Sys.panic (s : Sys ι) (msg : String) : Sys ι := { s with panicked := some msg }

@[simp] theorem Sys.setRefcnt_buf (s : Sys ι) (b : Fin NBUF) (f : Nat → Nat) :
    (s.setRefcnt b f).buf = Function.update s.buf b { s.buf b with refcnt := f (s.buf b).refcnt } :=
  rfl

@[simp] theorem Sys.setRefcnt_links (s : Sys ι) (b : Fin NBUF) (f : Nat → Nat) :
    (s.setRefcnt b f).links = s.links := rfl

@[simp] theorem Sys.setRefcnt_held (s : Sys ι) (b : Fin NBUF) (f : Nat → Nat) :
    (s.setRefcnt b f).held = s.held := rfl

@[simp] theorem Sys.setRefcnt_pins (s : Sys ι) (b : Fin NBUF) (f : Nat → Nat) :
    (s.setRefcnt b f).pins = s.pins := rfl

@[simp] theorem Sys.setRefcnt_clock (s : Sys ι) (b : Fin NBUF) (f : Nat → Nat) :
    (s.setRefcnt b f).clock = s.clock := rfl

@[simp] theorem Sys.setRefcnt_released (s : Sys ι) (b : Fin NBUF) (f : Nat → Nat) :
    (s.setRefcnt b f).released = s.released := rfl

/-- The last reference released: the buffer moves to the front. -/
theorem Sys.brelse_last {s : Sys ι} {b : Fin NBUF} (h : (s.buf b).refcnt - 1 = 0) :
    s.brelse b = { s with
      buf := Function.update s.buf b { s.buf b with refcnt := (s.buf b).refcnt - 1 }
      links := (s.links.unlink b).pushFront b } := by
  unfold Sys.brelse
  dsimp only
  rw [Sys.setRefcnt_buf, Function.update_self, if_pos h]
  rfl

/-- Others still reference the buffer: it stays where it is. -/
theorem Sys.brelse_keep {s : Sys ι} {b : Fin NBUF} (h : (s.buf b).refcnt - 1 ≠ 0) :
    s.brelse b = s.setRefcnt b (· - 1) := by
  unfold Sys.brelse
  dsimp only
  rw [Sys.setRefcnt_buf, Function.update_self, if_neg h]

/-- What `bget` returns: the cached buffer with one more reference, or a recycled one. -/
theorem Sys.bget_cases {s : Sys ι} {dev blockno : Nat} {b : Fin NBUF} {buf : Fin NBUF → Buf}
    (h : s.bget dev blockno = some (b, buf)) :
    (s.lookup dev blockno = some b ∧
      buf = Function.update s.buf b { s.buf b with refcnt := (s.buf b).refcnt + 1 }) ∨
    (s.lookup dev blockno = none ∧ s.victim = some b ∧
      buf = Function.update s.buf b
        { s.buf b with dev := dev, blockno := blockno, valid := false, refcnt := 1 }) := by
  unfold Sys.bget at h
  split at h
  · rename_i b' hl
    cases h
    exact Or.inl ⟨hl, rfl⟩
  · rename_i hl
    split at h
    · rename_i b' hv
      cases h
      exact Or.inr ⟨hl, hv, rfl⟩
    · cases h

variable [DecidableEq ι]

/-- One step of process `c`. -/
def step (s : Sys ι) (c : ι) (a : Act) : Option (Sys ι) :=
  if s.panicked.isSome then none
  else match a with
  | .bget dev blockno =>
    match s.bget dev blockno with
    | some (b, buf) => some { s with buf := buf, held := Function.update s.held c (s.held c ++ [b]) }
    | none => some (s.panic "bget: no buffers")
  | .fill b =>
    if b ∈ s.held c then
      some { s with buf := Function.update s.buf b { s.buf b with valid := true } }
    else none
  | .brelse b =>
    -- `holdingsleep(&b->lock)`
    if b ∈ s.held c then
      some { s.brelse b with
        held := Function.update s.held c ((s.held c).erase b)
        clock := s.clock + 1
        released := Function.update s.released b (s.clock + 1) }
    else some (s.panic "brelse")
  | .bpin b =>
    if b ∈ s.held c then
      some { s.bpin b with pins := Function.update s.pins b (s.pins b + 1) }
    else none
  | .bunpin b =>
    -- undo a pin of a buffer the caller holds, as `install_trans` does
    if b ∈ s.held c ∧ 0 < s.pins b then
      some { s.bunpin b with pins := Function.update s.pins b (s.pins b - 1) }
    else none

/-- The state after `binit`: each buffer in turn linked in after `bcache.head`. -/
def Sys.init : Sys ι where
  buf := fun _ => Buf.zero
  links := (List.finRange NBUF).foldl Links.pushFront Links.empty
  held := fun _ => []
  pins := fun _ => 0
  clock := 0
  released := fun _ => 0
  panicked := none

/-- The states the cache reaches after `binit`. -/
inductive Reachable : Sys ι → Prop where
  | init : Reachable Sys.init
  | step {s s' : Sys ι} (c : ι) (a : Act) : Reachable s → step s c a = some s' → Reachable s'

end Xv6.Bio
