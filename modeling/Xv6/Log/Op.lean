import Xv6.Log.Basic

/-!
# Xv6.Log.Op — transactions in memory: `begin_op`, `log_write`, `end_op`

The in-memory half of `struct log` and the processes around it. Every step here is one critical
section of `log.lock` (the `bcache.lock` sections of `bread`, `brelse`, `bpin` and `bunpin`
included), except `commit`, which runs without the lock; while it runs `log.committing` is set,
so no other process can begin an operation, and no operation is open, so none can call
`log_write`. A process that sleeps in `begin_op` tests again when it wakes, at any time.

The file-system code around the log appears only through what it does to the log and the
buffer cache: it `bread`s a block, `log_write`s a buffer it holds, and `brelse`s it. Which
buffers it holds is kept as one list, `holds`; the blocks each process has passed to
`log_write` in its current operation are kept in `written`. Both are history variables, not in
the source. The premise of a well-behaved operation, at most `MAXOPBLOCKS` distinct blocks
written, is a condition on the `log_write` step.

A `panic` stops the kernel: `panicked` records its message and no step follows.
-/

namespace Xv6.Log

/-- The in-memory fields of `struct log` that transactions use. `outstanding` is an `int` that
counts the open operations, so it is never negative. -/
structure LogMem where
  outstanding : Nat
  committing : Bool
  lh : Header

/-- Where a process is with respect to the log. -/
inductive Pc where
  /-- Outside any file-system operation. -/
  | idle
  /-- In `begin_op`'s loop, asleep or about to test. -/
  | beginOp
  /-- Between `begin_op` and `end_op`. -/
  | op
  /-- In `end_op` with `do_commit` set: about to run `commit`. -/
  | commit
  deriving DecidableEq

/-- The log, the buffer counts, the processes and the history variables. -/
structure Sys (ι : Type*) where
  log : LogMem
  /-- `b->refcnt` of the buffer caching each block. -/
  refcnt : Nat → Nat
  holds : List Nat
  pc : ι → Pc
  written : ι → List Nat
  panicked : Option String

/-- What process `c` does next. -/
inductive Act where
  /-- Call `begin_op`. -/
  | beginOp
  /-- Test `begin_op`'s condition again, or run `commit`. -/
  | run
  /-- `bread` block `b`. -/
  | bread (b : Nat)
  /-- `brelse` a buffer of block `b`. -/
  | brelse (b : Nat)
  /-- `log_write` a buffer of block `b`. -/
  | logWrite (b : Nat)
  /-- Call `end_op`. -/
  | endOp

/-- `log_write`'s loop: the first `i < n` with `log.lh.block[i] == b`, or `n`. -/
def absorbIndex (lh : Header) (b : Nat) : Nat :=
  ((List.range lh.n).find? fun i => lh.block i == b).getD lh.n

/-- `install_trans(0)`'s `bunpin` of each logged buffer. -/
def unpinAll (lh : Header) (refcnt : Nat → Nat) : Nat → Nat :=
  (List.range lh.n).foldl (fun r t => Function.update r (lh.block t) (r (lh.block t) - 1)) refcnt

variable {ι : Type*} [DecidableEq ι]

/-- Process `c` moves to `pc`. -/
def Sys.setPc (s : Sys ι) (c : ι) (pc : Pc) : Sys ι :=
  { s with pc := Function.update s.pc c pc }

@[simp] theorem Sys.setPc_log (s : Sys ι) (c : ι) (p : Pc) : (s.setPc c p).log = s.log := rfl
@[simp] theorem Sys.setPc_refcnt (s : Sys ι) (c : ι) (p : Pc) : (s.setPc c p).refcnt = s.refcnt :=
  rfl
@[simp] theorem Sys.setPc_holds (s : Sys ι) (c : ι) (p : Pc) : (s.setPc c p).holds = s.holds := rfl
@[simp] theorem Sys.setPc_pc (s : Sys ι) (c : ι) (p : Pc) :
    (s.setPc c p).pc = Function.update s.pc c p := rfl
@[simp] theorem Sys.setPc_written (s : Sys ι) (c : ι) (p : Pc) :
    (s.setPc c p).written = s.written := rfl

/-- `panic(msg)`. -/
def Sys.panic (s : Sys ι) (msg : String) : Sys ι :=
  { s with panicked := some msg }

/-- One pass of `begin_op`'s loop: sleep while a commit runs or while this operation might
exhaust the log, otherwise count it in. `none` is a sleep. -/
def Sys.beginOpTest (s : Sys ι) (c : ι) : Option (Sys ι) :=
  if s.log.committing then none
  else if LOGBLOCKS < s.log.lh.n + (s.log.outstanding + 1) * MAXOPBLOCKS then none
  else some { s.setPc c .op with log := { s.log with outstanding := s.log.outstanding + 1 } }

/-- `log_write` of a buffer of block `b`. -/
def Sys.logWrite (s : Sys ι) (b : Nat) : Sys ι :=
  if LOGBLOCKS ≤ s.log.lh.n then s.panic "too big a transaction"
  else if s.log.outstanding < 1 then s.panic "log_write outside of trans"
  else
    let i := absorbIndex s.log.lh b
    let lh := { s.log.lh with block := Function.update s.log.lh.block i b }
    if i = s.log.lh.n then
      -- add the new block to the log: `bpin(b)`, `log.lh.n++`
      { s with log := { s.log with lh := { lh with n := lh.n + 1 } },
               refcnt := Function.update s.refcnt b (s.refcnt b + 1) }
    else { s with log := { s.log with lh := lh } }

/-- `end_op` up to the call of `commit`: the operation is counted out, and the last one out
sets `committing` and goes on to commit. -/
def Sys.endOp (s : Sys ι) (c : ι) : Sys ι :=
  let log := { s.log with outstanding := s.log.outstanding - 1 }
  if log.committing then { s with log := log }.panic "log.committing"
  else if log.outstanding = 0 then { s.setPc c .commit with log := { log with committing := true } }
  -- wakeup(&log)
  else { s.setPc c .idle with log := log }

/-- `commit()`, then the end of `end_op`: `install_trans(0)` unpins the logged buffers, the log
is emptied, and `committing` is cleared. The disk writes are `Xv6.Log.commit`. -/
def Sys.commit (s : Sys ι) (c : ι) : Sys ι :=
  let s := if 0 < s.log.lh.n then
      { s with refcnt := unpinAll s.log.lh s.refcnt,
               log := { s.log with lh := { s.log.lh with n := 0 } } }
    else s
  { s.setPc c .idle with log := { s.log with committing := false } }

/-- One step of process `c`. -/
def step (s : Sys ι) (c : ι) (a : Act) : Option (Sys ι) :=
  if s.panicked.isSome then none
  else match a with
  | .beginOp => if s.pc c = .idle then some (s.setPc c .beginOp) else none
  | .run =>
    match s.pc c with
    | .beginOp => s.beginOpTest c
    | .commit => some (s.commit c)
    | _ => none
  | .bread b =>
    -- `bget` finds the buffer or recycles one with `refcnt == 0`; either way one more reference
    some { s with refcnt := Function.update s.refcnt b (s.refcnt b + 1), holds := s.holds ++ [b] }
  | .brelse b =>
    if b ∈ s.holds then
      some { s with refcnt := Function.update s.refcnt b (s.refcnt b - 1), holds := s.holds.erase b }
    else none
  | .logWrite b =>
    -- an operation writes a buffer it holds, and at most `MAXOPBLOCKS` distinct blocks
    if s.pc c = .op ∧ b ∈ s.holds ∧ (b ∈ s.written c ∨ (s.written c).length < MAXOPBLOCKS) then
      some { s.logWrite b with
        written := Function.update s.written c
          (if b ∈ s.written c then s.written c else s.written c ++ [b]) }
    else none
  | .endOp =>
    if s.pc c = .op then some { s.endOp c with written := Function.update s.written c [] }
    else none

/-- The state after `initlog`: an empty log, no buffer referenced, no process in an
operation. -/
def Sys.init : Sys ι where
  log := ⟨0, false, Header.zero⟩
  refcnt := fun _ => 0
  holds := []
  pc := fun _ => .idle
  written := fun _ => []
  panicked := none

/-- The states the log reaches after boot. -/
inductive Reachable : Sys ι → Prop where
  | init : Reachable Sys.init
  | step {s s' : Sys ι} (c : ι) (a : Act) : Reachable s → step s c a = some s' → Reachable s'

end Xv6.Log
