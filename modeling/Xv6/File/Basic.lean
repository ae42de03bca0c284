import Mathlib

/-!
# Xv6.File.Basic — the open-file table and the calls that count its references

`ftable.file` (`kernel/file.c`) holds `NFILE` entries; each process has `NOFILE` slots,
`p->ofile`. `filealloc`, `filedup` and the counting part of `fileclose` each run inside
`ftable.lock` and are one step here. A process writes its own slots without a lock, and each
such write is a step of its own, as is each `fileclose` or `filedup` of a loop: between any two
of them other processes run. `pipeclose` and `iput`, which `fileclose` calls once the entry is
free, touch no entry and no slot.

What a process is doing is its program point `Pc`, with the locals the rest of its call reads:
`sys_open` once it has its inode, `sys_dup`, `sys_close`, `sys_pipe` with `pipealloc`, `kfork`'s
copy of the slots, and `kexit`'s closing of them. Failing `kalloc`, `uvmcopy` and `copyout` are
the `ok` of the step that would call them.

Only `type` and `ref` of `struct file` are kept: `readable`, `writable`, `pipe`, `ip`, `off` and
`major` are written by `sys_open` and `pipealloc` but read only by `fileread`, `filewrite` and
the `pipeclose` or `iput` after the entry is freed.
-/

namespace Xv6.Ftable

/-- `NOFILE` of `param.h`: open files per process. -/
def NOFILE : Nat := 16

/-- `NFILE` of `param.h`: open files per system. -/
def NFILE : Nat := 100

instance : NeZero NOFILE := ⟨by decide⟩

instance : NeZero NFILE := ⟨by decide⟩

/-- `f->type`. -/
inductive FType where
  | none
  | pipe
  | inode
  | device
  deriving DecidableEq

/-- The fields of `struct file` the table itself reads. `ref` is an `int` that never goes below
zero. -/
structure File where
  type : FType
  ref : Nat
  deriving DecidableEq

/-- Where a process is in a call that changes the table or its slots, with the locals the rest
of the call uses. -/
inductive Pc (ι : Type*) where
  | idle
  /-- `sys_open` with its inode: `filealloc` next. -/
  | openAlloc (device : Bool)
  /-- `fdalloc(f)` next. -/
  | openFd (f : Fin NFILE) (device : Bool)
  /-- `f->type = ...` next. -/
  | openType (f : Fin NFILE) (device : Bool)
  /-- `sys_dup` with `f` from slot `fd`: `fdalloc(f)` next. -/
  | dupFd (f : Fin NFILE) (fd : Fin NOFILE)
  /-- `fdalloc` put `f` in slot `fd'`: `filedup(f)` next. -/
  | dupDup (f : Fin NFILE) (fd fd' : Fin NOFILE)
  /-- `pipealloc`: `*f0 = filealloc()` next. -/
  | pipeAlloc0
  /-- `*f1 = filealloc()` next. -/
  | pipeAlloc1 (f0 : Fin NFILE)
  /-- `kalloc()` next, then the two entries' fields. -/
  | pipeKalloc (f0 f1 : Fin NFILE)
  /-- Back in `sys_pipe`: `fdalloc(rf)` next. -/
  | pipeFd0 (rf wf : Fin NFILE)
  /-- `fdalloc(wf)` next. -/
  | pipeFd1 (rf wf : Fin NFILE) (fd0 : Fin NOFILE)
  /-- The two `copyout`s next. -/
  | pipeCopy (rf wf : Fin NFILE) (fd0 fd1 : Fin NOFILE)
  /-- Clear each of `slots` (each holding the file beside it), then `fileclose` each of `fs`:
  `sys_close` and every failure path. -/
  | undo (slots : List (Fin NOFILE × Fin NFILE)) (fs : List (Fin NFILE))
  /-- `kfork` with child `np` allocated: `uvmcopy` next. -/
  | forkCopy (np : ι)
  /-- `np->ofile[i] = filedup(p->ofile[i])`, for slot `i` on. -/
  | forkDup (np : ι) (i : Nat)
  /-- `filedup` returned `f`: store it in `np->ofile[i]` next. -/
  | forkStore (np : ι) (i : Fin NOFILE) (f : Fin NFILE)
  /-- Allocated by `parent`'s `kfork`, not yet runnable. -/
  | embryo (parent : ι)
  /-- `kexit`: `fileclose(p->ofile[fd])` for slot `fd` on. -/
  | exitClose (fd : Nat)
  /-- `fileclose(f)` done: `p->ofile[fd] = 0` next. -/
  | exitClear (fd : Fin NOFILE) (f : Fin NFILE)
  /-- Exited, until the parent's `kwait` frees the slot. -/
  | zombie
  deriving DecidableEq

/-- The table, every process's slots, and whether each process slot is in use
(`p->state != UNUSED`). -/
structure Sys (ι : Type*) where
  file : Fin NFILE → File
  ofile : ι → Fin NOFILE → Option (Fin NFILE)
  used : ι → Bool
  pc : ι → Pc ι
  /-- `initproc`. -/
  initproc : ι
  panicked : Option String

/-- What a process does next: start a call, or take the next step of the one in progress. -/
inductive Act (ι : Type*) where
  /-- `sys_open` once `namei` or `create` returned an inode, a device or not. -/
  | open (device : Bool)
  | dup (fd : Fin NOFILE)
  | close (fd : Fin NOFILE)
  | pipe
  /-- `kfork`, `allocproc` having picked the unused slot `np`. -/
  | fork (np : ι)
  | exit
  /-- `kwait` frees the zombie `p`. -/
  | reap (p : ι)
  /-- The next step of the call in progress; `ok` is whether its `kalloc`, `uvmcopy` or
  `copyout` succeeds. -/
  | run (ok : Bool)

variable {ι : Type*}

/-- `filealloc`'s loop: the first entry with `ref == 0`. -/
def Sys.filealloc (s : Sys ι) : Option (Fin NFILE) :=
  (List.finRange NFILE).find? fun f => (s.file f).ref == 0

/-- `fdalloc`'s loop: process `c`'s first empty slot. -/
def Sys.fdalloc (s : Sys ι) (c : ι) : Option (Fin NOFILE) :=
  (List.finRange NOFILE).find? fun fd => (s.ofile c fd).isNone

def Sys.setFile (s : Sys ι) (f : Fin NFILE) (x : File) : Sys ι :=
  { s with file := Function.update s.file f x }

def Sys.panic (s : Sys ι) (msg : String) : Sys ι := { s with panicked := some msg }

/-- `filealloc` claims entry `f`: `f->ref = 1`. -/
def Sys.claim (s : Sys ι) (f : Fin NFILE) : Sys ι :=
  s.setFile f { s.file f with ref := 1 }

/-- `filedup`. -/
def Sys.filedup (s : Sys ι) (f : Fin NFILE) : Sys ι :=
  if (s.file f).ref < 1 then s.panic "filedup"
  else s.setFile f { s.file f with ref := (s.file f).ref + 1 }

/-- `fileclose` up to `release(&ftable.lock)`: one reference fewer, and the last one frees the
entry. The `pipeclose` or `iput` that follows works on the copy `ff`. -/
def Sys.fileclose (s : Sys ι) (f : Fin NFILE) : Sys ι :=
  if (s.file f).ref < 1 then s.panic "fileclose"
  else if 0 < (s.file f).ref - 1 then s.setFile f { s.file f with ref := (s.file f).ref - 1 }
  else s.setFile f { s.file f with ref := 0, type := .none }

@[simp] theorem Sys.setFile_file (s : Sys ι) (f : Fin NFILE) (x : File) :
    (s.setFile f x).file = Function.update s.file f x := rfl
@[simp] theorem Sys.setFile_ofile (s : Sys ι) (f : Fin NFILE) (x : File) :
    (s.setFile f x).ofile = s.ofile := rfl
@[simp] theorem Sys.setFile_used (s : Sys ι) (f : Fin NFILE) (x : File) :
    (s.setFile f x).used = s.used := rfl
@[simp] theorem Sys.setFile_pc (s : Sys ι) (f : Fin NFILE) (x : File) :
    (s.setFile f x).pc = s.pc := rfl
@[simp] theorem Sys.setFile_panicked (s : Sys ι) (f : Fin NFILE) (x : File) :
    (s.setFile f x).panicked = s.panicked := rfl

/-- `filedup` of an entry in use: one more reference. -/
theorem Sys.filedup_eq {s : Sys ι} {f : Fin NFILE} (h : 1 ≤ (s.file f).ref) :
    s.filedup f = s.setFile f { s.file f with ref := (s.file f).ref + 1 } :=
  if_neg (Nat.not_lt.mpr h)

/-- `fileclose` of an entry in use: one reference fewer, and the entry freed with the last. -/
theorem Sys.fileclose_eq {s : Sys ι} {f : Fin NFILE} (h : 1 ≤ (s.file f).ref) :
    s.fileclose f = s.setFile f
      (if 0 < (s.file f).ref - 1 then { s.file f with ref := (s.file f).ref - 1 }
        else { s.file f with ref := 0, type := .none }) := by
  unfold Sys.fileclose
  rw [if_neg (Nat.not_lt.mpr h)]
  split <;> rfl

/-- `filedup` and `fileclose` touch the table alone, or panic. -/
@[simp] theorem Sys.filedup_ofile (s : Sys ι) (f : Fin NFILE) : (s.filedup f).ofile = s.ofile := by
  unfold Sys.filedup; split <;> rfl
@[simp] theorem Sys.filedup_used (s : Sys ι) (f : Fin NFILE) : (s.filedup f).used = s.used := by
  unfold Sys.filedup; split <;> rfl
@[simp] theorem Sys.filedup_pc (s : Sys ι) (f : Fin NFILE) : (s.filedup f).pc = s.pc := by
  unfold Sys.filedup; split <;> rfl
@[simp] theorem Sys.fileclose_ofile (s : Sys ι) (f : Fin NFILE) :
    (s.fileclose f).ofile = s.ofile := by
  unfold Sys.fileclose; split
  · rfl
  · split <;> rfl
@[simp] theorem Sys.fileclose_used (s : Sys ι) (f : Fin NFILE) : (s.fileclose f).used = s.used := by
  unfold Sys.fileclose; split
  · rfl
  · split <;> rfl
@[simp] theorem Sys.fileclose_pc (s : Sys ι) (f : Fin NFILE) : (s.fileclose f).pc = s.pc := by
  unfold Sys.fileclose; split
  · rfl
  · split <;> rfl

/-- `filedup` and `fileclose` panic only on an entry no one references. -/
theorem Sys.filedup_panicked {s : Sys ι} {f : Fin NFILE} (h : 1 ≤ (s.file f).ref) :
    (s.filedup f).panicked = s.panicked := by
  rw [Sys.filedup_eq h]; rfl
theorem Sys.fileclose_panicked {s : Sys ι} {f : Fin NFILE} (h : 1 ≤ (s.file f).ref) :
    (s.fileclose f).panicked = s.panicked := by
  rw [Sys.fileclose_eq h]; rfl

/-- `filealloc` returns an entry no one references. -/
theorem Sys.filealloc_ref {s : Sys ι} {f : Fin NFILE} (h : s.filealloc = some f) :
    (s.file f).ref = 0 := by
  simpa using List.find?_some h

/-- `fdalloc` returns an empty slot. -/
theorem Sys.fdalloc_none {s : Sys ι} {c : ι} {fd : Fin NOFILE} (h : s.fdalloc c = some fd) :
    s.ofile c fd = none := by
  simpa using List.find?_some h

variable [DecidableEq ι]

/-- `c->ofile[fd] = v`. -/
def Sys.setOfile (s : Sys ι) (c : ι) (fd : Fin NOFILE) (v : Option (Fin NFILE)) : Sys ι :=
  { s with ofile := Function.update s.ofile c (Function.update (s.ofile c) fd v) }

def Sys.setPc (s : Sys ι) (c : ι) (p : Pc ι) : Sys ι :=
  { s with pc := Function.update s.pc c p }

/-- `freeproc`, as far as the table sees it: the slot is unused again. -/
def Sys.free (s : Sys ι) (p : ι) : Sys ι :=
  { s with used := Function.update s.used p false, pc := Function.update s.pc p .idle }

@[simp] theorem Sys.setOfile_file (s : Sys ι) (c : ι) (fd : Fin NOFILE) (v : Option (Fin NFILE)) :
    (s.setOfile c fd v).file = s.file := rfl
@[simp] theorem Sys.setOfile_ofile (s : Sys ι) (c : ι) (fd : Fin NOFILE) (v : Option (Fin NFILE)) :
    (s.setOfile c fd v).ofile = Function.update s.ofile c (Function.update (s.ofile c) fd v) := rfl
@[simp] theorem Sys.setOfile_used (s : Sys ι) (c : ι) (fd : Fin NOFILE) (v : Option (Fin NFILE)) :
    (s.setOfile c fd v).used = s.used := rfl
@[simp] theorem Sys.setOfile_pc (s : Sys ι) (c : ι) (fd : Fin NOFILE) (v : Option (Fin NFILE)) :
    (s.setOfile c fd v).pc = s.pc := rfl
@[simp] theorem Sys.setOfile_panicked (s : Sys ι) (c : ι) (fd : Fin NOFILE)
    (v : Option (Fin NFILE)) : (s.setOfile c fd v).panicked = s.panicked := rfl

@[simp] theorem Sys.setPc_file (s : Sys ι) (c : ι) (p : Pc ι) : (s.setPc c p).file = s.file := rfl
@[simp] theorem Sys.setPc_ofile (s : Sys ι) (c : ι) (p : Pc ι) : (s.setPc c p).ofile = s.ofile :=
  rfl
@[simp] theorem Sys.setPc_used (s : Sys ι) (c : ι) (p : Pc ι) : (s.setPc c p).used = s.used := rfl
@[simp] theorem Sys.setPc_pc (s : Sys ι) (c : ι) (p : Pc ι) :
    (s.setPc c p).pc = Function.update s.pc c p := rfl
@[simp] theorem Sys.setPc_panicked (s : Sys ι) (c : ι) (p : Pc ι) :
    (s.setPc c p).panicked = s.panicked := rfl

@[simp] theorem Sys.free_file (s : Sys ι) (p : ι) : (s.free p).file = s.file := rfl
@[simp] theorem Sys.free_ofile (s : Sys ι) (p : ι) : (s.free p).ofile = s.ofile := rfl
@[simp] theorem Sys.free_used (s : Sys ι) (p : ι) :
    (s.free p).used = Function.update s.used p false := rfl
@[simp] theorem Sys.free_pc (s : Sys ι) (p : ι) : (s.free p).pc = Function.update s.pc p .idle :=
  rfl
@[simp] theorem Sys.free_panicked (s : Sys ι) (p : ι) : (s.free p).panicked = s.panicked := rfl

/-- The next step of process `c`'s call in progress. -/
def Sys.run (s : Sys ι) (c : ι) (ok : Bool) : Option (Sys ι) :=
  match s.pc c with
  | .openAlloc dev =>
    match s.filealloc with
    | some f => some ((s.claim f).setPc c (.openFd f dev))
    | none => some (s.setPc c .idle)
  | .openFd f dev =>
    match s.fdalloc c with
    | some fd => some ((s.setOfile c fd (some f)).setPc c (.openType f dev))
    | none => some (s.setPc c (.undo [] [f]))
  | .openType f dev =>
    some ((s.setFile f { s.file f with type := if dev then .device else .inode }).setPc c .idle)
  | .dupFd f fd =>
    match s.fdalloc c with
    | some fd' => some ((s.setOfile c fd' (some f)).setPc c (.dupDup f fd fd'))
    | none => some (s.setPc c .idle)
  | .dupDup f _ _ => some ((s.filedup f).setPc c .idle)
  | .pipeAlloc0 =>
    match s.filealloc with
    | some f0 => some ((s.claim f0).setPc c (.pipeAlloc1 f0))
    | none => some (s.setPc c .idle)
  | .pipeAlloc1 f0 =>
    match s.filealloc with
    | some f1 => some ((s.claim f1).setPc c (.pipeKalloc f0 f1))
    | none => some (s.setPc c (.undo [] [f0]))
  | .pipeKalloc f0 f1 =>
    if ok then
      let s := s.setFile f0 { s.file f0 with type := .pipe }
      some ((s.setFile f1 { s.file f1 with type := .pipe }).setPc c (.pipeFd0 f0 f1))
    else some (s.setPc c (.undo [] [f0, f1]))
  | .pipeFd0 rf wf =>
    match s.fdalloc c with
    | some fd0 => some ((s.setOfile c fd0 (some rf)).setPc c (.pipeFd1 rf wf fd0))
    | none => some (s.setPc c (.undo [] [rf, wf]))
  | .pipeFd1 rf wf fd0 =>
    match s.fdalloc c with
    | some fd1 => some ((s.setOfile c fd1 (some wf)).setPc c (.pipeCopy rf wf fd0 fd1))
    | none => some (s.setPc c (.undo [(fd0, rf)] [rf, wf]))
  | .pipeCopy rf wf fd0 fd1 =>
    if ok then some (s.setPc c .idle)
    else some (s.setPc c (.undo [(fd0, rf), (fd1, wf)] [rf, wf]))
  | .undo ((fd, _) :: slots) fs => some ((s.setOfile c fd none).setPc c (.undo slots fs))
  | .undo [] (f :: fs) => some ((s.fileclose f).setPc c (.undo [] fs))
  | .undo [] [] => some (s.setPc c .idle)
  | .forkCopy np =>
    if ok then some (s.setPc c (.forkDup np 0))
    else some ((s.free np).setPc c .idle)
  | .forkDup np i =>
    if h : i < NOFILE then
      match s.ofile c ⟨i, h⟩ with
      | some f => some ((s.filedup f).setPc c (.forkStore np ⟨i, h⟩ f))
      | none => some (s.setPc c (.forkDup np (i + 1)))
    -- `np->state = RUNNABLE`
    else some ((s.setPc np .idle).setPc c .idle)
  | .forkStore np i f => some ((s.setOfile np i (some f)).setPc c (.forkDup np (i.val + 1)))
  | .exitClose fd =>
    if h : fd < NOFILE then
      match s.ofile c ⟨fd, h⟩ with
      | some f => some ((s.fileclose f).setPc c (.exitClear ⟨fd, h⟩ f))
      | none => some (s.setPc c (.exitClose (fd + 1)))
    else some (s.setPc c .zombie)
  | .exitClear fd _ => some ((s.setOfile c fd none).setPc c (.exitClose (fd.val + 1)))
  | .idle | .embryo _ | .zombie => none

/-- An idle process `c` starts a call. -/
def Sys.start (s : Sys ι) (c : ι) : Act ι → Option (Sys ι)
  | .open dev => some (s.setPc c (.openAlloc dev))
  | .dup fd =>
    -- `argfd`
    match s.ofile c fd with
    | some f => some (s.setPc c (.dupFd f fd))
    | none => none
  | .close fd =>
    match s.ofile c fd with
    | some f => some (s.setPc c (.undo [(fd, f)] [f]))
    | none => none
  | .pipe => some (s.setPc c .pipeAlloc0)
  | .fork np =>
    if s.used np then none
    else some (({ s with used := Function.update s.used np true }.setPc np (.embryo c)).setPc c
      (.forkCopy np))
  | .exit =>
    if c = s.initproc then some (s.panic "init exiting") else some (s.setPc c (.exitClose 0))
  | .reap p => if s.pc p = .zombie then some (s.free p) else none
  | .run _ => none

/-- One step of process `c`. -/
def step (s : Sys ι) (c : ι) (a : Act ι) : Option (Sys ι) :=
  if s.panicked.isSome ∨ s.used c = false then none
  else match a with
  | .run ok => s.run c ok
  | a => if s.pc c = .idle then s.start c a else none

/-- Boot: the table zeroed, and `userinit`'s first process. -/
def Sys.init (first : ι) : Sys ι where
  file := fun _ => ⟨.none, 0⟩
  ofile := fun _ _ => none
  used := fun c => decide (c = first)
  pc := fun _ => .idle
  initproc := first
  panicked := none

/-- The states reached from boot. -/
inductive Reachable (first : ι) : Sys ι → Prop where
  | init : Reachable first (Sys.init first)
  | step {s s' : Sys ι} (c : ι) (a : Act ι) :
      Reachable first s → step s c a = some s' → Reachable first s'

end Xv6.Ftable
