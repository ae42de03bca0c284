import Xv6.Lib.Ring
import Xv6.Lib.Lock

/-!
# Xv6.Console.Basic — console input in `kernel/console.c` as a transition system

`cons.buf` is a ring of `INPUT_BUF_SIZE` bytes with three free-running `uint` indices: bytes
from `r` to `w` are committed and wait for `consoleread`, bytes from `w` to `e` are the line
being edited, and `cons.buf[k % INPUT_BUF_SIZE]` is the cell of index `k`. `consoleintr` runs
for each input character under `cons.lock`; any number of processes call `consoleread`.

As for pipes, each reader is a program point over `consoleread`'s loop, with the loop variables
as constructor fields, and `cons.lock` is `Sys.lock`. A step of a reader is one iteration; a
sleeping reader may wake at any time. An interrupt runs `consoleintr` whole while the lock is
free. The reader's memory fixes, per call, whether `either_copyout` to each address succeeds.
Echo (`consputc`) and `procdump` print and leave the buffer alone; they are left out.

Three history variables, which the source does not have, record what went through the buffer:
`committed`, every byte that moved below `w`; `taken`, every byte that moved below `r`; and
`delivered`, every byte a read copied out.
-/

namespace Xv6.Console

open Xv6.Lib

/-! ## The input buffer -/

/-- `INPUT_BUF_SIZE` of `console.c`. -/
def INPUT_BUF_SIZE : Nat := 128

instance : NeZero INPUT_BUF_SIZE := ⟨by decide⟩

theorem input_buf_size_dvd : INPUT_BUF_SIZE ∣ 2 ^ 32 := ⟨2 ^ 25, by decide⟩

/-- `C(x)`: control-x. -/
def C (x : Char) : UInt8 :=
  x.toUInt8 - '@'.toUInt8

/-- The input half of `cons`; its spinlock is `Sys.lock`. The buffer holds `char`s, which are
unsigned on RISC-V, as are the `int`s `uartgetc` passes to `consoleintr`. -/
structure Cons where
  buf : Fin INPUT_BUF_SIZE → UInt8
  r : UInt32
  w : UInt32
  e : UInt32

/-- The committed bytes a read may still take: the cells from `r` up to `w`. -/
def Cons.window (cons : Cons) : List UInt8 :=
  ringView cons.buf cons.r.toNat (cons.w - cons.r).toNat

/-- The loop of `C('U')`: erase back to `w` or to the last newline. The loop ends after at most
`e - w` rounds, since each round moves `e` one closer to `w`. -/
def Cons.killLine (cons : Cons) : Cons :=
  if h : cons.e ≠ cons.w ∧ cons.buf (slot INPUT_BUF_SIZE (cons.e - 1).toNat) ≠ '\n'.toUInt8 then
    { cons with e := cons.e - 1 }.killLine
  else cons
termination_by (cons.e - cons.w).toNat
decreasing_by
  show (cons.e - 1 - cons.w).toNat < (cons.e - cons.w).toNat
  have hpos : (cons.e - cons.w).toNat ≠ 0 := fun h0 => h.1 (word_dist_eq_zero.mp h0).symm
  rw [word_dist_dec h.1]
  omega

/-- The `default` case of `consoleintr`: store `c` (`'\r'` as `'\n'`) at `e` if the buffer has
room, and commit the line at a newline, a `^D`, or when the buffer is full. -/
def Cons.store (cons : Cons) (c : UInt8) : Cons :=
  if c ≠ 0 ∧ (cons.e - cons.r).toNat < INPUT_BUF_SIZE then
    let c := if c = '\r'.toUInt8 then '\n'.toUInt8 else c
    -- cons.buf[cons.e++ % INPUT_BUF_SIZE] = c
    let cons := { cons with buf := Function.update cons.buf (slot INPUT_BUF_SIZE cons.e.toNat) c,
                            e := cons.e + 1 }
    if c = '\n'.toUInt8 ∨ c = C 'D' ∨ (cons.e - cons.r).toNat = INPUT_BUF_SIZE then
      { cons with w := cons.e }
    else cons
  else cons

/-- `consoleintr(c)` under `cons.lock`. -/
def Cons.consoleintr (cons : Cons) (c : UInt8) : Cons :=
  if c = C 'P' then cons
  else if c = C 'U' then cons.killLine
  else if c = C 'H' ∨ c = 0x7f then
    if cons.e ≠ cons.w then { cons with e := cons.e - 1 } else cons
  else cons.store c

/-! ## Readers -/

/-- Where a reader is. In a call `consoleread(user_dst, dst, n)`, `target` is the `n` of the
call and `n` the bytes still wanted; `dst k` says whether `either_copyout` to `dst + k`
succeeds, and is shifted at each `dst++`. -/
inductive Pc where
  /-- Not inside `consoleread`. -/
  | idle
  /-- In `consoleread`, waiting for `cons.lock` (at the call or after `sleep`). -/
  | readLock (target n : Int) (dst : Nat → Bool)
  /-- Holding `cons.lock` at the head of `consoleread`'s loop. -/
  | read (target n : Int) (dst : Nat → Bool)
  /-- Returned `v` from the last call. -/
  | ret (v : Int)

/-- The points at which a reader holds `cons.lock`. -/
def Pc.Holds : Pc → Prop
  | .read .. => True
  | _ => False

/-- The points outside `consoleread`. -/
def Pc.Outside : Pc → Prop
  | .idle | .ret _ => True
  | _ => False

instance (pc : Pc) : Decidable pc.Outside := by
  cases pc <;> simp only [Pc.Outside] <;> infer_instance

/-- The console input, its lock, the readers and the three history variables. -/
structure Sys (ι : Type*) where
  cons : Cons
  lock : Option ι
  pc : ι → Pc
  killed : ι → Bool
  committed : List UInt8
  taken : List UInt8
  delivered : List UInt8

/-- What happens next: an input character, or a step of reader `c`. -/
inductive Act where
  /-- `uartintr` passes an input character to `consoleintr`. -/
  | consoleintr (ch : UInt8)
  /-- Call `consoleread(user_dst, dst, n)`. -/
  | consoleread (n : Int) (dst : Nat → Bool)
  /-- Take the next step of the current call. -/
  | run
  /-- `kkill` of the reader's process. -/
  | kill

variable {ι : Type*} [DecidableEq ι]

/-- Reader `c` moves to `pc`. -/
def Sys.setPc (s : Sys ι) (c : ι) (pc : Pc) : Sys ι :=
  { s with pc := Function.update s.pc c pc }

/-- Reader `c` releases `cons.lock` (at a return, or inside `sleep`) and moves to `pc`. -/
def Sys.release (s : Sys ι) (c : ι) (pc : Pc) : Sys ι :=
  { s.setPc c pc with lock := none }

@[simp] theorem Sys.setPc_cons (s : Sys ι) (c : ι) (pc : Pc) : (s.setPc c pc).cons = s.cons := rfl
@[simp] theorem Sys.setPc_lock (s : Sys ι) (c : ι) (pc : Pc) : (s.setPc c pc).lock = s.lock := rfl
@[simp] theorem Sys.setPc_pc (s : Sys ι) (c : ι) (pc : Pc) :
    (s.setPc c pc).pc = Function.update s.pc c pc := rfl
@[simp] theorem Sys.setPc_committed (s : Sys ι) (c : ι) (pc : Pc) :
    (s.setPc c pc).committed = s.committed := rfl
@[simp] theorem Sys.setPc_taken (s : Sys ι) (c : ι) (pc : Pc) :
    (s.setPc c pc).taken = s.taken := rfl
@[simp] theorem Sys.setPc_delivered (s : Sys ι) (c : ι) (pc : Pc) :
    (s.setPc c pc).delivered = s.delivered := rfl
@[simp] theorem Sys.release_lock (s : Sys ι) (c : ι) (pc : Pc) : (s.release c pc).lock = none :=
  rfl

/-- `consoleintr(c)`: the bytes that moved below `w` are committed. -/
def Sys.consoleintr (s : Sys ι) (c : UInt8) : Sys ι :=
  let cons := s.cons.consoleintr c
  { s with cons := cons,
           committed := s.committed ++ ringView cons.buf s.cons.w.toNat (cons.w - s.cons.w).toNat }

/-- One iteration of `consoleread`'s loop, `cons.lock` held. The result `target - n` is computed
in `uint`; it lies between 0 and the `n` of the call, so `Int` computes it exactly. -/
def Sys.consolereadLoop (s : Sys ι) (c : ι) (target n : Int) (dst : Nat → Bool) : Sys ι :=
  if 0 < n then
    if s.cons.r = s.cons.w then
      if s.killed c then s.release c (.ret (-1))
      -- sleep(&cons.r, &cons.lock)
      else s.release c (.readLock target n dst)
    else
      -- c = cons.buf[cons.r++ % INPUT_BUF_SIZE]
      let ch := s.cons.buf (slot INPUT_BUF_SIZE s.cons.r.toNat)
      let cons := { s.cons with r := s.cons.r + 1 }
      if ch = C 'D' then
        -- save ^D for next time, unless it is the first byte of this read
        if n < target then { s.release c (.ret (target - n)) with cons := { cons with r := cons.r - 1 } }
        else { s.release c (.ret (target - n)) with cons := cons, taken := s.taken ++ [ch] }
      else if dst 0 then
        let s := { s with cons := cons, taken := s.taken ++ [ch], delivered := s.delivered ++ [ch] }
        if ch = '\n'.toUInt8 then s.release c (.ret (target - (n - 1)))
        else s.setPc c (.read target (n - 1) fun k => dst (k + 1))
      else { s.release c (.ret (target - n)) with cons := cons, taken := s.taken ++ [ch] }
  else s.release c (.ret (target - n))

/-- The next step of reader `c`'s current call. -/
def Sys.run (s : Sys ι) (c : ι) : Option (Sys ι) :=
  match s.pc c with
  | .readLock target n dst =>
    if s.lock = none then some { s.setPc c (.read target n dst) with lock := some c } else none
  | .read target n dst => some (s.consolereadLoop c target n dst)
  | .idle | .ret _ => none

/-- One step: an interrupt takes the free lock for a whole `consoleintr`; otherwise reader `c`
moves. -/
def step (s : Sys ι) (c : ι) : Act → Option (Sys ι)
  | .consoleintr ch => if s.lock = none then some (s.consoleintr ch) else none
  | .consoleread n dst => if (s.pc c).Outside then some (s.setPc c (.readLock n n dst)) else none
  | .run => s.run c
  | .kill => some { s with killed := Function.update s.killed c true }

/-- The state at boot: `cons` is zeroed, no reader is inside a call. -/
def Sys.init (killed : ι → Bool) : Sys ι where
  cons := ⟨fun _ => 0, 0, 0, 0⟩
  lock := none
  pc := fun _ => .idle
  killed := killed
  committed := []
  taken := []
  delivered := []

/-- The states the console reaches from boot. -/
inductive Reachable : Sys ι → Prop where
  | init (killed : ι → Bool) : Reachable (Sys.init killed)
  | step {s s' : Sys ι} (c : ι) (a : Act) : Reachable s → step s c a = some s' → Reachable s'

end Xv6.Console
