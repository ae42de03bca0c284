import Mathlib

/-!
# Xv6.Sched.Basic — the process table, the per-CPU records and the scheduler's program counter

The data of `kernel/proc.h` and `kernel/proc.c` that the schedulers and the process operations
read and write. A slot of `proc[NPROC]` is a `Proc`; the slot index plays the role of the pointer
`&proc[i]`. Fields declared `uint64` are `UInt64`, fields declared `int` are `Int` (the values they
hold stay far from the 32-bit bounds, and signed overflow is undefined in C), and the `int`
arguments that system calls read with `argint` are `Int32`.

A CPU's scheduler thread is a program counter `SchedPc` over the loops of `schedule_rr`,
`schedule_fifo`, `schedule_sjf`, `schedule_stcf`, `starvation_clean` and `schedule_mlfq`, with the
loop's local variables as constructor fields, so that each lock critical section of a scan (and each
lock-free read of FIFO's scan) is one step of the model. While a process runs, the scheduler thread is
parked inside `swtch` at `SchedPc.run k`, where `k` names the code that follows that `swtch`.

The parts of `struct proc` that no modelled function reads (`kstack`, `sz`, `pagetable`,
`trapframe`, `ofile`, `cwd`, `name`) are left out; `context` is kept only as the place where `swtch`
resumes the process.
-/

namespace Xv6.Sched

/-! ## Configuration and constants -/

/-- `NPROC` of `kernel/param.h`: the size of the process table. -/
def NPROC : Nat := 64

theorem nproc_eq : NPROC = 64 := rfl

instance : NeZero NPROC := ⟨by decide⟩

/-- `SCHED_POLICY` of `kernel/proc.h`, fixed when the kernel is built. -/
inductive SchedPolicy where
  | rr
  | fifo
  | sjf
  | stcf
  | mlfq
  deriving DecidableEq, Repr

/-- `enum procstate`. -/
inductive Procstate where
  | unused
  | used
  | sleeping
  | runnable
  | running
  | zombie
  deriving DecidableEq, Repr

/-- A `void *chan` value: the null pointer, the address of a process slot (`kwait` sleeps on its own
`struct proc`, `kexit` wakes `p->parent` and `initproc`), or the address of another kernel object
(`&ticks`, a pipe, a buffer, the log). -/
inductive Chan where
  | null
  | proc (i : Fin NPROC)
  | obj (a : Nat)
  deriving DecidableEq, Repr

/-- Where `swtch` resumes a process, i.e. the return address saved in `p->context`: `forkret` for a
process that has never run (set by `allocproc`), or inside `yield`, `sleep` or `kexit` right after
their call of `sched`. `zero` is the all-zero context of a slot that was never allocated. -/
inductive Context where
  | zero
  | forkret
  | yield
  | sleep
  | kexit
  deriving DecidableEq, Repr

/-- `quantum[3]` of `proc.c`: `{0.5*10000, 1*10000, 2*10000}` converted to `uint64`. -/
def quantum : Vector UInt64 3 := #v[5000, 10000, 20000]

/-- `quantum[i]` for an `int` index; `none` is an access outside the array. -/
def quantumAt (i : Int) : Option UInt64 :=
  if h : 0 ≤ i ∧ i < 3 then some (quantum.get ⟨i.toNat, by omega⟩) else none

/-- `starv_cut` of `proc.c`: a RUNNABLE process waiting longer than this is aged one level up. -/
def starvCut : UInt64 := 1000 * 10000

/-- `~0ULL`, the key `schedule_sjf` and `schedule_stcf` give a process without a hint. -/
def noHint : UInt64 := ~~~0

/-! ## The process table -/

/-- `struct proc`, restricted to the fields the schedulers and the process operations use. -/
structure Proc where
  state : Procstate
  chan : Chan
  killed : Int
  xstate : Int
  pid : Int
  parent : Option (Fin NPROC)
  context : Context
  ctime : UInt64
  etime : UInt64
  rtime : UInt64
  stime : UInt64
  ltime : UInt64
  timeLeft : UInt64
  expectedRuntime : UInt64
  priority : Int
  queueLevel : Int
  timeSlice : UInt64
  demote : Int
  deriving DecidableEq, Repr

/-- A slot of the zero-initialised `proc[]` array after `procinit`: every field is zero and the
state is `UNUSED`. -/
def Proc.unused : Proc where
  state := .unused
  chan := .null
  killed := 0
  xstate := 0
  pid := 0
  parent := none
  context := .zero
  ctime := 0
  etime := 0
  rtime := 0
  stime := 0
  ltime := 0
  timeLeft := 0
  expectedRuntime := 0
  priority := 0
  queueLevel := 0
  timeSlice := 0
  demote := 0

/-- `initproc`: `userinit` runs `allocproc` on the empty table, which hands out slot 0. -/
def initproc : Fin NPROC := ⟨0, by decide⟩

/-! ## The scheduler thread of a CPU -/

/-- The locals `best`, `best_key`, `best_ctime`, `best_pid` of the scans of `schedule_sjf` and
`schedule_stcf`. -/
structure Best where
  best : Option (Fin NPROC)
  key : UInt64
  ctime : UInt64
  pid : Int
  deriving DecidableEq, Repr

/-- The initial values `best = 0`, `best_key = ~0ULL`, `best_ctime = ~0ULL`, `best_pid = 0`. -/
def Best.init : Best := ⟨none, noHint, noHint, 0⟩

/-- The code that follows the `swtch` of a dispatch: it names the scheduler the process was
dispatched from and, for `schedule_rr`, the slot its loop continues after. -/
inductive Ret where
  | rr (i : Nat)
  | fifo
  | sjf
  | stcf
  | mlfq
  deriving DecidableEq, Repr

/-- The program counter of a CPU's scheduler thread, with the locals of the loop it is in.

* `top`: the head of `scheduler()`'s `for (;;)`, where interrupts are briefly enabled.
* `rr i`: `schedule_rr` about to lock slot `i`; `rr NPROC` returns.
* `fifo i sel`: `schedule_fifo`'s lock-free scan about to read slot `i` with `selected = sel`;
  `fifo NPROC sel` is the code after the scan.
* `sjf i b`, `stcf i b`: the scans of `schedule_sjf` and `schedule_stcf` at slot `i`; at `NPROC`
  the code after the scan.
* `starv i time`: `starvation_clean` at slot `i`, with the `time` it read when it started.
* `mlfq prty i minP`: the level-`prty` scan of `schedule_mlfq` at slot `i`, holding the lock of
  `min_p`; at `NPROC` the code after that level's scan.
* `start`: the label `start_search` of `schedule_mlfq`.
* `run k`: parked in `swtch` while `c->proc` runs; `k` is the code after the `swtch`.
* `leak j`: `schedule_mlfq` left through its `break` still holding the lock of `j`. -/
inductive SchedPc where
  | top
  | rr (i : Nat)
  | fifo (i : Nat) (sel : Option (Fin NPROC))
  | sjf (i : Nat) (b : Best)
  | stcf (i : Nat) (b : Best)
  | starv (i : Nat) (time : UInt64)
  | mlfq (prty : Nat) (i : Nat) (minP : Option (Fin NPROC))
  | start
  | run (k : Ret)
  | leak (j : Fin NPROC)
  deriving DecidableEq, Repr

/-- `struct cpu`: the process it runs (`c->proc`) and where its scheduler thread is. -/
structure Cpu where
  proc : Option (Fin NPROC)
  pc : SchedPc
  deriving DecidableEq, Repr

/-- The proc lock a CPU's scheduler thread holds between steps: the candidate `min_p` of an MLFQ
level scan, or the lock leaked by `schedule_mlfq`'s `break`. Every other critical section of the
model is a single step. -/
def Cpu.holds (c : Cpu) : Option (Fin NPROC) :=
  match c.pc with
  | .mlfq _ _ minP => minP
  | .leak j => some j
  | _ => none

/-- The kernel state on `n` CPUs: the process table, the CPUs, `nextpid` and the `time` CSR that
`getTime()` reads. -/
structure Kernel (n : Nat) where
  procs : Fin NPROC → Proc
  cpus : Fin n → Cpu
  nextpid : Int
  now : UInt64

namespace Kernel

variable {n : Nat}

/-- Write slot `j` of the process table. -/
def setProc (s : Kernel n) (j : Fin NPROC) (p : Proc) : Kernel n :=
  { s with procs := Function.update s.procs j p }

/-- Write the record of CPU `c`. -/
def setCpu (s : Kernel n) (c : Fin n) (x : Cpu) : Kernel n :=
  { s with cpus := Function.update s.cpus c x }

/-- Move the scheduler thread of CPU `c` to `pc`, leaving `c->proc` as it is. -/
def setPc (s : Kernel n) (c : Fin n) (pc : SchedPc) : Kernel n :=
  s.setCpu c { s.cpus c with pc := pc }

@[simp] theorem setProc_procs (s : Kernel n) (j : Fin NPROC) (p : Proc) :
    (s.setProc j p).procs = Function.update s.procs j p := rfl

@[simp] theorem setProc_cpus (s : Kernel n) (j : Fin NPROC) (p : Proc) :
    (s.setProc j p).cpus = s.cpus := rfl

@[simp] theorem setProc_nextpid (s : Kernel n) (j : Fin NPROC) (p : Proc) :
    (s.setProc j p).nextpid = s.nextpid := rfl

@[simp] theorem setProc_now (s : Kernel n) (j : Fin NPROC) (p : Proc) :
    (s.setProc j p).now = s.now := rfl

@[simp] theorem setCpu_procs (s : Kernel n) (c : Fin n) (x : Cpu) :
    (s.setCpu c x).procs = s.procs := rfl

@[simp] theorem setCpu_cpus (s : Kernel n) (c : Fin n) (x : Cpu) :
    (s.setCpu c x).cpus = Function.update s.cpus c x := rfl

@[simp] theorem setCpu_nextpid (s : Kernel n) (c : Fin n) (x : Cpu) :
    (s.setCpu c x).nextpid = s.nextpid := rfl

@[simp] theorem setCpu_now (s : Kernel n) (c : Fin n) (x : Cpu) :
    (s.setCpu c x).now = s.now := rfl

@[simp] theorem setPc_procs (s : Kernel n) (c : Fin n) (pc : SchedPc) :
    (s.setPc c pc).procs = s.procs := rfl

@[simp] theorem setPc_cpus (s : Kernel n) (c : Fin n) (pc : SchedPc) :
    (s.setPc c pc).cpus = Function.update s.cpus c { s.cpus c with pc := pc } := rfl

@[simp] theorem setPc_nextpid (s : Kernel n) (c : Fin n) (pc : SchedPc) :
    (s.setPc c pc).nextpid = s.nextpid := rfl

@[simp] theorem setPc_now (s : Kernel n) (c : Fin n) (pc : SchedPc) :
    (s.setPc c pc).now = s.now := rfl

/-- Some CPU other than `c` holds the lock of slot `j`, so `acquire(&proc[j].lock)` on `c` spins. -/
def lockedElsewhere (s : Kernel n) (c : Fin n) (j : Fin NPROC) : Prop :=
  ∃ c', c' ≠ c ∧ (s.cpus c').holds = some j

instance (s : Kernel n) (c : Fin n) (j : Fin NPROC) : Decidable (s.lockedElsewhere c j) :=
  inferInstanceAs (Decidable (∃ c', c' ≠ c ∧ _))

end Kernel

end Xv6.Sched
