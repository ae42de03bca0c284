import Xv6.Lib.Ring

/-!
# Xv6.Pipe.Basic — `kernel/pipe.c` as a transition system

`struct pipe` is a ring of `PIPESIZE` bytes with two free-running `uint` counters: `nwrite`
counts the bytes stored, `nread` the bytes taken, and `pi->data[k % PIPESIZE]` is the cell of
counter `k`. Any number of processes call `pipewrite`, `piperead` and `pipeclose` on one pipe.

Each caller is a program point over the loops of `pipewrite` and `piperead`, with the loop
variables as constructor fields. `pi->lock` is `Sys.lock`: a caller acquires it at the call and
after each `sleep`, and holds it through loop iterations until it sleeps or returns, so every
critical section is a run of steps of one caller. A step is one loop iteration; a sleeper may
wake at any time, which covers every order of `wakeup`s. The process's user memory fixes, per
call, which byte `copyin` of `addr + i` yields (or that it fails) and whether `copyout` to
`addr + i` succeeds; `killed` may be set at any point.

Two history variables, which the source does not have, record what the pipe has carried:
`stored`, every byte `pipewrite` stored, and `delivered`, every byte `piperead` copied out.
-/

namespace Xv6.Pipe

open Xv6.Lib

/-! ## The pipe -/

/-- `PIPESIZE` of `pipe.c`. -/
def PIPESIZE : Nat := 512

instance : NeZero PIPESIZE := ⟨by decide⟩

theorem pipesize_dvd : PIPESIZE ∣ 2 ^ 32 := ⟨2 ^ 23, by decide⟩

/-- `struct pipe`; its spinlock is `Sys.lock`. `readopen` and `writeopen` hold 0 or 1. -/
structure Pipe where
  data : Fin PIPESIZE → UInt8
  nread : UInt32
  nwrite : UInt32
  readopen : Bool
  writeopen : Bool

/-- How many bytes the pipe holds: `nwrite - nread` in `uint` arithmetic. -/
def Pipe.count (p : Pipe) : Nat :=
  (p.nwrite - p.nread).toNat

/-- The bytes in the pipe, oldest first: the cells from `nread` up to `nwrite`. -/
def Pipe.contents (p : Pipe) : List UInt8 :=
  ringView p.data p.nread.toNat p.count

/-- `pi->nwrite == pi->nread + PIPESIZE`. -/
def Pipe.full (p : Pipe) : Bool :=
  p.nwrite == p.nread + 512

/-- `pi->nread == pi->nwrite`. -/
def Pipe.empty (p : Pipe) : Bool :=
  p.nread == p.nwrite

/-- `pi->data[pi->nwrite++ % PIPESIZE] = ch`. -/
def Pipe.put (p : Pipe) (ch : UInt8) : Pipe :=
  { p with data := Function.update p.data (slot PIPESIZE p.nwrite.toNat) ch,
           nwrite := p.nwrite + 1 }

/-- `pi->data[pi->nread % PIPESIZE]`. -/
def Pipe.head (p : Pipe) : UInt8 :=
  p.data (slot PIPESIZE p.nread.toNat)

/-- `pi->nread++`. -/
def Pipe.take (p : Pipe) : Pipe :=
  { p with nread := p.nread + 1 }

/-! ### What the operations do to the contents -/

@[simp] theorem Pipe.contents_length (p : Pipe) : p.contents.length = p.count := by
  simp [Pipe.contents]

/-- Below a full turn of the counters, the pipe is full exactly when it holds `PIPESIZE`
bytes. -/
theorem Pipe.full_iff (p : Pipe) : p.full = true ↔ p.count = PIPESIZE := by
  simp only [Pipe.full, beq_iff_eq, Pipe.count]
  rw [word_eq_add_iff]
  rfl

theorem Pipe.count_put (p : Pipe) (ch : UInt8) (h : p.count < PIPESIZE) :
    (p.put ch).count = p.count + 1 := by
  apply word_dist_succ
  change p.count + 1 < 2 ^ 32
  have : PIPESIZE < 2 ^ 32 := by decide
  omega

/-- Storing in a pipe that is not full appends the byte. -/
theorem Pipe.contents_put (p : Pipe) (ch : UInt8) (h : p.count < PIPESIZE) :
    (p.put ch).contents = p.contents ++ [ch] :=
  ringView_word_push p.data pipesize_dvd (by decide) h ch

theorem Pipe.count_take (p : Pipe) (h : p.empty = false) : p.take.count = p.count - 1 := by
  have hne : p.nread ≠ p.nwrite := by simpa [Pipe.empty] using h
  exact word_dist_pred hne

/-- Taking from a pipe that is not empty removes the oldest byte, `pi->data[pi->nread %
PIPESIZE]`. -/
theorem Pipe.contents_take (p : Pipe) (h : p.empty = false) :
    p.contents = p.head :: p.take.contents := by
  have hne : p.nread ≠ p.nwrite := by simpa [Pipe.empty] using h
  exact ringView_word_take p.data pipesize_dvd hne

/-- `pipeclose(pi, writable)` under `pi->lock`: the end is marked closed. The `kfree` of a pipe
with both ends closed is left out. -/
def Pipe.pipeclose (p : Pipe) (writable : Bool) : Pipe :=
  if writable then { p with writeopen := false } else { p with readopen := false }

/-- The pipe `pipealloc` builds in a page `kalloc` returned. -/
def Pipe.alloc (data : Fin PIPESIZE → UInt8) : Pipe where
  data := data
  nread := 0
  nwrite := 0
  readopen := true
  writeopen := true

/-! ## Callers -/

/-- Where a caller is. `src i` is what `copyin` of `addr + i` yields (`none` when it fails) and
`dst i` whether `copyout` to `addr + i` succeeds. -/
inductive Pc where
  /-- Not inside a pipe call. -/
  | idle
  /-- In `pipewrite` with `i` bytes stored, waiting for `pi->lock` (at the call or after
  `sleep`). -/
  | writeLock (n : Int) (src : Nat → Option UInt8) (i : Nat)
  /-- Holding `pi->lock` at the head of `pipewrite`'s loop. -/
  | write (n : Int) (src : Nat → Option UInt8) (i : Nat)
  /-- In `piperead`, waiting for `pi->lock` (at the call or after `sleep`). -/
  | readLock (n : Int) (dst : Nat → Bool)
  /-- Holding `pi->lock` at the test of `piperead`'s `while` loop. -/
  | readWait (n : Int) (dst : Nat → Bool)
  /-- Holding `pi->lock` in `piperead`'s copy loop with `i` bytes copied. -/
  | read (n : Int) (dst : Nat → Bool) (i : Nat)
  /-- Returned `v` from the last call. -/
  | ret (v : Int)

/-- The points at which a caller holds `pi->lock`. -/
def Pc.Holds : Pc → Prop
  | .write .. | .readWait .. | .read .. => True
  | _ => False

/-- The points outside any pipe call. -/
def Pc.Outside : Pc → Prop
  | .idle | .ret _ => True
  | _ => False

instance (pc : Pc) : Decidable pc.Outside := by
  cases pc <;> simp only [Pc.Outside] <;> infer_instance

/-- The pipe, its lock, the callers and the two history variables. -/
structure Sys (ι : Type*) where
  pipe : Pipe
  lock : Option ι
  pc : ι → Pc
  killed : ι → Bool
  stored : List UInt8
  delivered : List UInt8

/-- What caller `c` does. -/
inductive Act where
  /-- Call `pipewrite(pi, addr, n)`. -/
  | pipewrite (n : Int) (src : Nat → Option UInt8)
  /-- Call `piperead(pi, addr, n)`. -/
  | piperead (n : Int) (dst : Nat → Bool)
  /-- Call `pipeclose(pi, writable)`. -/
  | pipeclose (writable : Bool)
  /-- Take the next step of the current call. -/
  | run
  /-- `kkill` of the caller's process. -/
  | kill

variable {ι : Type*} [DecidableEq ι]

/-- Caller `c` moves to `pc`. -/
def Sys.setPc (s : Sys ι) (c : ι) (pc : Pc) : Sys ι :=
  { s with pc := Function.update s.pc c pc }

/-- Caller `c` releases `pi->lock` (at a return, or inside `sleep`) and moves to `pc`. -/
def Sys.release (s : Sys ι) (c : ι) (pc : Pc) : Sys ι :=
  { s.setPc c pc with lock := none }

@[simp] theorem Sys.setPc_pipe (s : Sys ι) (c : ι) (pc : Pc) : (s.setPc c pc).pipe = s.pipe := rfl
@[simp] theorem Sys.setPc_lock (s : Sys ι) (c : ι) (pc : Pc) : (s.setPc c pc).lock = s.lock := rfl
@[simp] theorem Sys.setPc_pc (s : Sys ι) (c : ι) (pc : Pc) :
    (s.setPc c pc).pc = Function.update s.pc c pc := rfl
@[simp] theorem Sys.setPc_killed (s : Sys ι) (c : ι) (pc : Pc) :
    (s.setPc c pc).killed = s.killed := rfl
@[simp] theorem Sys.setPc_stored (s : Sys ι) (c : ι) (pc : Pc) :
    (s.setPc c pc).stored = s.stored := rfl
@[simp] theorem Sys.setPc_delivered (s : Sys ι) (c : ι) (pc : Pc) :
    (s.setPc c pc).delivered = s.delivered := rfl
@[simp] theorem Sys.release_pipe (s : Sys ι) (c : ι) (pc : Pc) : (s.release c pc).pipe = s.pipe :=
  rfl
@[simp] theorem Sys.release_lock (s : Sys ι) (c : ι) (pc : Pc) : (s.release c pc).lock = none :=
  rfl
@[simp] theorem Sys.release_pc (s : Sys ι) (c : ι) (pc : Pc) :
    (s.release c pc).pc = Function.update s.pc c pc := rfl
@[simp] theorem Sys.release_stored (s : Sys ι) (c : ι) (pc : Pc) :
    (s.release c pc).stored = s.stored := rfl
@[simp] theorem Sys.release_delivered (s : Sys ι) (c : ι) (pc : Pc) :
    (s.release c pc).delivered = s.delivered := rfl

/-- One iteration of `pipewrite`'s loop, `i` bytes stored, `pi->lock` held. -/
def Sys.pipewriteLoop (s : Sys ι) (c : ι) (n : Int) (src : Nat → Option UInt8) (i : Nat) :
    Sys ι :=
  if (i : Int) < n then
    if !s.pipe.readopen || s.killed c then s.release c (.ret (-1))
    else if s.pipe.full then
      -- `wakeup(&pi->nread)`, then `sleep(&pi->nwrite, &pi->lock)`
      s.release c (.writeLock n src i)
    else
      match src i with
      | none => s.release c (.ret i)
      | some ch =>
        { s.setPc c (.write n src (i + 1)) with pipe := s.pipe.put ch, stored := s.stored ++ [ch] }
  else s.release c (.ret i)

/-- The test of `piperead`'s `while` loop, `pi->lock` held. -/
def Sys.pipereadWait (s : Sys ι) (c : ι) (n : Int) (dst : Nat → Bool) : Sys ι :=
  if s.pipe.empty && s.pipe.writeopen then
    if s.killed c then s.release c (.ret (-1))
    -- `sleep(&pi->nread, &pi->lock)`
    else s.release c (.readLock n dst)
  else s.setPc c (.read n dst 0)

/-- One iteration of `piperead`'s copy loop, `i` bytes copied, `pi->lock` held. -/
def Sys.pipereadLoop (s : Sys ι) (c : ι) (n : Int) (dst : Nat → Bool) (i : Nat) : Sys ι :=
  if (i : Int) < n then
    if s.pipe.empty then s.release c (.ret i)
    else if dst i then
      { s.setPc c (.read n dst (i + 1)) with
        pipe := s.pipe.take, delivered := s.delivered ++ [s.pipe.head] }
    else s.release c (.ret (if i = 0 then -1 else i))
  else s.release c (.ret i)

/-- The next step of caller `c`'s current call. -/
def Sys.run (s : Sys ι) (c : ι) : Option (Sys ι) :=
  match s.pc c with
  | .writeLock n src i =>
    if s.lock = none then some { s.setPc c (.write n src i) with lock := some c } else none
  | .write n src i => some (s.pipewriteLoop c n src i)
  | .readLock n dst =>
    if s.lock = none then some { s.setPc c (.readWait n dst) with lock := some c } else none
  | .readWait n dst => some (s.pipereadWait c n dst)
  | .read n dst i => some (s.pipereadLoop c n dst i)
  | .idle | .ret _ => none

/-- One step of caller `c`. -/
def step (s : Sys ι) (c : ι) : Act → Option (Sys ι)
  | .pipewrite n src => if (s.pc c).Outside then some (s.setPc c (.writeLock n src 0)) else none
  | .piperead n dst => if (s.pc c).Outside then some (s.setPc c (.readLock n dst)) else none
  | .pipeclose writable =>
    if (s.pc c).Outside ∧ s.lock = none then
      some { s with pipe := s.pipe.pipeclose writable }
    else none
  | .run => s.run c
  | .kill => some { s with killed := Function.update s.killed c true }

/-- The state after `pipealloc`: no caller inside a call, any process possibly killed. -/
def Sys.init (data : Fin PIPESIZE → UInt8) (killed : ι → Bool) : Sys ι where
  pipe := Pipe.alloc data
  lock := none
  pc := fun _ => .idle
  killed := killed
  stored := []
  delivered := []

/-- The states the callers reach from `pipealloc`. -/
inductive Reachable : Sys ι → Prop where
  | init (data : Fin PIPESIZE → UInt8) (killed : ι → Bool) : Reachable (Sys.init data killed)
  | step {s s' : Sys ι} (c : ι) (a : Act) : Reachable s → step s c a = some s' → Reachable s'

end Xv6.Pipe
