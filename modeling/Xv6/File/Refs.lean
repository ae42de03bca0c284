import Xv6.File.Basic
import Xv6.Lib.Tally
import Xv6.Lib.Run

/-!
# Xv6.File.Refs — where every reference to an open-file entry is

`f->ref` is the number of slots that point to `f` and of references that a call in progress
keeps in a local (`Pc.holds`), with two exceptions. `sys_dup` puts `f` in its new slot
(`fdalloc`) before `filedup` counts it, and `kexit` empties a slot only after the `fileclose`
that gave up its reference: that `fileclose` may free the entry, and another process may take
it, while the slot still points to it. `Pc.unbacked` names the slot of each window; the count
leaves it out (`ok_of_reachable`), and the run `exitWindow` reaches the second window.

What one step may change of the processes is stated once, `Ok.of_changed`; each step of each
call is then one lemma, and `Ok.step` puts them together.
-/

namespace Xv6.Ftable

open Xv6.Lib Finset

variable {ι : Type*}

/-! ## Counting the references -/

/-- The slots of `o` that point to `f`, `skip` left out. -/
def slotCount (o : Fin NOFILE → Option (Fin NFILE)) (skip : Option (Fin NOFILE))
    (f : Fin NFILE) : Nat :=
  ∑ fd, if o fd = some f ∧ skip ≠ some fd then 1 else 0

/-- Leaving out slot `fd` loses what `fd` points to. -/
theorem slotCount_skip (o : Fin NOFILE → Option (Fin NFILE)) (fd : Fin NOFILE) (f : Fin NFILE) :
    slotCount o (some fd) f + (if o fd = some f then 1 else 0) = slotCount o none f := by
  have h := sum_add_eq_of_agree (f := fun x => if o x = some f ∧ some fd ≠ some x then 1 else 0)
    (g := fun x => if o x = some f ∧ (none : Option (Fin NOFILE)) ≠ some x then 1 else 0) fd
    fun x hx => by simp [Ne.symm hx]
  simpa [slotCount] using h.symm

/-- A write to a slot that is left out changes nothing. -/
theorem slotCount_update_skip (o : Fin NOFILE → Option (Fin NFILE)) (fd : Fin NOFILE)
    (v : Option (Fin NFILE)) (f : Fin NFILE) :
    slotCount (Function.update o fd v) (some fd) f = slotCount o (some fd) f := by
  unfold slotCount
  refine Finset.sum_congr rfl fun x _ => ?_
  by_cases hx : x = fd
  · subst hx
    simp
  · rw [Function.update_of_ne hx]

/-- A write to slot `fd` trades what `fd` pointed to for what it points to now. -/
theorem slotCount_update (o : Fin NOFILE → Option (Fin NFILE)) (fd : Fin NOFILE)
    (v : Option (Fin NFILE)) (f : Fin NFILE) :
    slotCount (Function.update o fd v) none f + (if o fd = some f then 1 else 0) =
      slotCount o none f + (if v = some f then 1 else 0) := by
  have h1 := slotCount_skip (Function.update o fd v) fd f
  have h2 := slotCount_skip o fd f
  rw [slotCount_update_skip, Function.update_self] at h1
  omega

theorem slotCount_of_empty {o : Fin NOFILE → Option (Fin NFILE)} (h : ∀ fd, o fd = none)
    (skip : Option (Fin NOFILE)) (f : Fin NFILE) : slotCount o skip f = 0 := by
  simp [slotCount, h]

/-- A slot that is not left out counts. -/
theorem slotCount_pos {o : Fin NOFILE → Option (Fin NFILE)} {skip : Option (Fin NOFILE)}
    {fd : Fin NOFILE} {f : Fin NFILE} (h : o fd = some f) (hs : skip ≠ some fd) :
    0 < slotCount o skip f := by
  have hle := Finset.single_le_sum (f := fun x => if o x = some f ∧ skip ≠ some x then 1 else 0)
    (fun x _ => Nat.zero_le _) (Finset.mem_univ fd)
  simp only [h, hs, ne_eq, not_false_eq_true, and_self, if_true] at hle
  exact hle

/-- The references the call in progress holds in its locals: the entries `filealloc` or
`filedup` returned that no slot holds yet, and those `undo` has still to close beyond the slots
it has still to clear. -/
def Pc.holds : Pc ι → Fin NFILE → Nat
  | .openFd g _, f => [g].count f
  | .pipeAlloc1 f0, f => [f0].count f
  | .pipeKalloc f0 f1, f => [f0, f1].count f
  | .pipeFd0 rf wf, f => [rf, wf].count f
  | .pipeFd1 _ wf _, f => [wf].count f
  | .undo slots fs, f => fs.count f - (slots.map Prod.snd).count f
  | .forkStore _ _ g, f => [g].count f
  | _, _ => 0

/-- The slot the call has written without the reference behind it: `sys_dup`'s new slot before
`filedup`, and `kexit`'s slot after `fileclose`. -/
def Pc.unbacked : Pc ι → Option (Fin NOFILE)
  | .dupDup _ _ fd' => some fd'
  | .exitClear fd _ => some fd
  | _ => none

/-- What process `x` accounts for of `f->ref`: its slots that point to `f`, while the process
slot is in use, and the references its call holds. -/
def Sys.share (s : Sys ι) (x : ι) (f : Fin NFILE) : Nat :=
  (if s.used x then slotCount (s.ofile x) (s.pc x).unbacked f else 0) + (s.pc x).holds f

theorem Sys.share_of_used {s : Sys ι} {x : ι} (hu : s.used x = true) (f : Fin NFILE) :
    s.share x f = slotCount (s.ofile x) (s.pc x).unbacked f + (s.pc x).holds f := by
  rw [Sys.share, if_pos hu]

theorem Sys.share_setPc_self [DecidableEq ι] {s : Sys ι} {c : ι} (hu : s.used c = true) (p : Pc ι)
    (f : Fin NFILE) : (s.setPc c p).share c f = slotCount (s.ofile c) p.unbacked f + p.holds f := by
  simp [Sys.share, hu]

/-- Process `x` is the same in `s` and `s'`. -/
def Sys.Agree (s s' : Sys ι) (x : ι) : Prop :=
  s'.used x = s.used x ∧ s'.pc x = s.pc x ∧ s'.ofile x = s.ofile x

theorem Sys.Agree.share {s s' : Sys ι} {x : ι} (h : s.Agree s' x) : s'.share x = s.share x := by
  unfold Sys.share
  rw [h.1, h.2.1, h.2.2]

/-- Only `c`'s slots, state and program point move when `c` writes them or the table. -/
@[simp] theorem Sys.agree_setFile (s : Sys ι) (f : Fin NFILE) (y : File) (x : ι) :
    s.Agree (s.setFile f y) x :=
  ⟨rfl, rfl, rfl⟩

/-! ## What each program point knows -/

/-- `np` is the child `c`'s `kfork` is filling, with its slots from `i` on still empty. -/
structure Child (s : Sys ι) (c np : ι) (i : Nat) : Prop where
  ne : np ≠ c
  used : s.used np = true
  embryo : s.pc np = .embryo c
  empty : ∀ fd : Fin NOFILE, i ≤ fd.val → s.ofile np fd = none

theorem Child.congr {s s' : Sys ι} {c np : ι} {i : Nat} (h : Child s c np i) (ha : s.Agree s' np) :
    Child s' c np i :=
  ⟨h.ne, ha.1 ▸ h.used, ha.2.1 ▸ h.embryo, fun fd hfd => ha.2.2 ▸ h.empty fd hfd⟩

theorem Child.mono {s : Sys ι} {c np : ι} {i j : Nat} (h : Child s c np i) (hij : i ≤ j) :
    Child s c np j :=
  ⟨h.ne, h.used, h.embryo, fun fd hfd => h.empty fd (Nat.le_trans hij hfd)⟩

/-- What holds of process `c`'s slots at each program point. -/
def PcOk (s : Sys ι) (c : ι) : Pc ι → Prop
  | .openType f _ => ∃ fd, s.ofile c fd = some f
  | .dupFd f fd => s.ofile c fd = some f
  | .dupDup f fd fd' => s.ofile c fd = some f ∧ s.ofile c fd' = some f ∧ fd ≠ fd'
  | .pipeFd1 rf _ fd0 => s.ofile c fd0 = some rf
  | .pipeCopy rf wf fd0 fd1 => s.ofile c fd0 = some rf ∧ s.ofile c fd1 = some wf ∧ fd0 ≠ fd1
  | .undo slots fs =>
    (∀ p ∈ slots, s.ofile c p.1 = some p.2) ∧ (slots.map Prod.fst).Nodup ∧
      (slots.map Prod.snd).Sublist fs
  | .forkCopy np => Child s c np 0
  | .forkDup np i => Child s c np i
  | .forkStore np i _ => Child s c np i.val
  | .exitClose fd => ∀ fd' : Fin NOFILE, fd'.val < fd → s.ofile c fd' = none
  | .exitClear fd f =>
    s.ofile c fd = some f ∧ ∀ fd' : Fin NOFILE, fd'.val < fd.val → s.ofile c fd' = none
  | .zombie => ∀ fd, s.ofile c fd = none
  | _ => True

/-- What `PcOk` says depends on the process's slots, and on its child's, while it forks. -/
theorem PcOk.congr {s s' : Sys ι} {c : ι} {p : Pc ι} (hc : s'.ofile c = s.ofile c)
    (hemb : ∀ np, s.pc np = .embryo c → s.Agree s' np) (h : PcOk s c p) : PcOk s' c p := by
  cases p with
  | forkCopy np =>
    have h : Child s c np 0 := h
    exact h.congr (hemb np h.embryo)
  | forkDup np i =>
    have h : Child s c np i := h
    exact h.congr (hemb np h.embryo)
  | forkStore np i f =>
    have h : Child s c np i.val := h
    exact h.congr (hemb np h.embryo)
  | _ => simp only [PcOk, hc] at h ⊢ <;> exact h

/-- A step of `c` that leaves its slots alone and moves no one's embryo keeps what its program
point knows. -/
theorem PcOk.of_local {s s' : Sys ι} {c : ι} {p : Pc ι} (hemb : ∀ d, s.pc c ≠ .embryo d)
    (hagree : ∀ x, x ≠ c → s.Agree s' x) (hc : s'.ofile c = s.ofile c) (h : PcOk s c p) :
    PcOk s' c p :=
  h.congr hc fun np hnp => hagree np fun he => hemb c (he ▸ hnp)

/-- Process `x` in a reachable state: a free process slot has no open files, and a used one is
where its program point says. -/
def ProcOk (s : Sys ι) (x : ι) : Prop :=
  (s.used x = false → s.pc x = .idle ∧ ∀ fd, s.ofile x fd = none) ∧
    (s.used x = true → PcOk s x (s.pc x))

theorem ProcOk.of_used {s : Sys ι} {x : ι} (hu : s.used x = true) (h : PcOk s x (s.pc x)) :
    ProcOk s x :=
  ⟨fun hf => absurd (hu.symm.trans hf) Bool.noConfusion, fun _ => h⟩

/-- An entry no one references has type `FD_NONE`. -/
def FreeNone (file : Fin NFILE → File) : Prop :=
  ∀ f, (file f).ref = 0 → (file f).type = .none

theorem FreeNone.update {file : Fin NFILE → File} (h : FreeNone file) {g : Fin NFILE} {x : File}
    (hx : x.ref = 0 → x.type = .none) : FreeNone (Function.update file g x) := by
  intro f
  by_cases hf : f = g
  · subst hf
    simpa using hx
  · simpa [Function.update_of_ne hf] using h f

/-! ## The table's operations -/

section Table

variable {s : Sys ι} {g : Fin NFILE}

theorem Sys.claim_ref (h : (s.file g).ref = 0) (f : Fin NFILE) :
    ((s.claim g).file f).ref = (s.file f).ref + if g = f then 1 else 0 := by
  by_cases hgf : g = f
  · subst hgf
    simp [Sys.claim, h]
  · simp [Sys.claim, Function.update_of_ne (Ne.symm hgf), hgf]

theorem Sys.filedup_ref (h : 1 ≤ (s.file g).ref) (f : Fin NFILE) :
    ((s.filedup g).file f).ref = (s.file f).ref + if g = f then 1 else 0 := by
  rw [Sys.filedup_eq h]
  by_cases hgf : g = f
  · subst hgf
    simp
  · simp [Function.update_of_ne (Ne.symm hgf), hgf]

theorem Sys.fileclose_ref (h : 1 ≤ (s.file g).ref) (f : Fin NFILE) :
    ((s.fileclose g).file f).ref + (if g = f then 1 else 0) = (s.file f).ref := by
  rw [Sys.fileclose_eq h]
  by_cases hgf : g = f
  · subst hgf
    simp only [Sys.setFile_file, Function.update_self, if_true]
    split <;> simp <;> omega
  · simp [Function.update_of_ne (Ne.symm hgf), hgf]

theorem Sys.setType_ref (t : FType) (f : Fin NFILE) :
    ((s.setFile g { s.file g with type := t }).file f).ref = (s.file f).ref := by
  by_cases hgf : g = f
  · subst hgf
    simp
  · simp [Function.update_of_ne (Ne.symm hgf)]

theorem FreeNone.claim (h : FreeNone s.file) (g : Fin NFILE) : FreeNone (s.claim g).file :=
  h.update (by simp)

theorem FreeNone.filedup (h : FreeNone s.file) (hr : 1 ≤ (s.file g).ref) :
    FreeNone (s.filedup g).file := by
  rw [Sys.filedup_eq hr]
  exact h.update (by simp)

theorem FreeNone.fileclose (h : FreeNone s.file) (hr : 1 ≤ (s.file g).ref) :
    FreeNone (s.fileclose g).file := by
  rw [Sys.fileclose_eq hr]
  refine h.update fun h0 => ?_
  by_cases hpos : 0 < (s.file g).ref - 1
  · rw [if_pos hpos] at h0
    simp at h0
    omega
  · rw [if_neg hpos]

end Table

variable [Fintype ι]

/-- The open-file table in every reachable state. -/
structure Ok (s : Sys ι) : Prop where
  refs : ∀ f, (s.file f).ref = ∑ x, s.share x f
  free : FreeNone s.file
  proc : ∀ x, ProcOk s x
  panicked : ∀ msg, s.panicked = some msg → msg = "init exiting"

theorem Ok.pcOk {s : Sys ι} (h : Ok s) {c : ι} (hu : s.used c = true) : PcOk s c (s.pc c) :=
  (h.proc c).2 hu

theorem Ok.pcOk_at {s : Sys ι} (h : Ok s) {c : ι} (hu : s.used c = true) {p : Pc ι}
    (hp : s.pc c = p) : PcOk s c p :=
  hp ▸ h.pcOk hu

/-- Every reference accounted for is one `ref` counts. -/
theorem Ok.ref_pos {s : Sys ι} (h : Ok s) {x : ι} {f : Fin NFILE} (hx : 0 < s.share x f) :
    1 ≤ (s.file f).ref := by
  have hle := Finset.single_le_sum (f := fun x => s.share x f) (fun _ _ => Nat.zero_le _)
    (Finset.mem_univ x)
  rw [h.refs f]
  exact Nat.lt_of_lt_of_le hx hle

theorem Ok.ref_pos_of_slot {s : Sys ι} (h : Ok s) {x : ι} {fd : Fin NOFILE} {f : Fin NFILE}
    (hu : s.used x = true) (ho : s.ofile x fd = some f) (hb : (s.pc x).unbacked ≠ some fd) :
    1 ≤ (s.file f).ref := by
  refine h.ref_pos (x := x) ?_
  have := slotCount_pos ho hb
  rw [Sys.share_of_used hu]
  omega

theorem Ok.ref_pos_of_holds {s : Sys ι} (h : Ok s) {x : ι} {f : Fin NFILE}
    (hx : 0 < (s.pc x).holds f) : 1 ≤ (s.file f).ref := by
  refine h.ref_pos (x := x) ?_
  unfold Sys.share
  omega

variable [DecidableEq ι]

/-- A step that changes the processes of `S` alone keeps `Ok`, if it keeps the count for them,
keeps an unreferenced entry free, leaves each of them consistent, and takes no embryo of a
process outside `S` (whose parent's facts would speak of it). -/
theorem Ok.of_changed {s s' : Sys ι} (h : Ok s) (S : Finset ι)
    (hagree : ∀ x, x ∉ S → s.Agree s' x)
    (hemb : ∀ x ∈ S, ∀ d, d ∉ S → s.pc x ≠ .embryo d)
    (hbal : ∀ f, (s'.file f).ref + ∑ x ∈ S, s.share x f = (s.file f).ref + ∑ x ∈ S, s'.share x f)
    (hfree : FreeNone s'.file) (hproc : ∀ x ∈ S, ProcOk s' x)
    (hpanic : s'.panicked = s.panicked) : Ok s' := by
  refine ⟨fun f => ?_, hfree, fun x => ?_, fun msg hm => h.panicked msg (hpanic ▸ hm)⟩
  · have hout : ∑ x ∈ Sᶜ, s'.share x f = ∑ x ∈ Sᶜ, s.share x f :=
      Finset.sum_congr rfl fun x hx => by rw [(hagree x (Finset.mem_compl.mp hx)).share]
    have h1 := Finset.sum_compl_add_sum S (fun x => s.share x f)
    have h2 := Finset.sum_compl_add_sum S (fun x => s'.share x f)
    have := h.refs f
    have := hbal f
    omega
  · by_cases hx : x ∈ S
    · exact hproc x hx
    · have ha := hagree x hx
      obtain ⟨hfree', hok⟩ := h.proc x
      -- an embryo of `x` is outside `S`, so it did not move either
      have hemb' : ∀ np, s.pc np = .embryo x → s.Agree s' np := fun np hnp => by
        by_cases hn : np ∈ S
        · exact absurd hnp (hemb np hn x hx)
        · exact hagree np hn
      refine ⟨fun hu => ?_, fun hu => ?_⟩
      · rw [ha.1] at hu
        rw [ha.2.1, ha.2.2]
        exact hfree' hu
      · rw [ha.1] at hu
        rw [ha.2.1]
        exact PcOk.congr ha.2.2 hemb' (hok hu)

/-- `Ok.of_changed` for a step that changes process `c` alone. -/
theorem Ok.of_local {s s' : Sys ι} (h : Ok s) (c : ι)
    (hagree : ∀ x, x ≠ c → s.Agree s' x) (hemb : ∀ d, s.pc c ≠ .embryo d)
    (hbal : ∀ f, (s'.file f).ref + s.share c f = (s.file f).ref + s'.share c f)
    (hfree : FreeNone s'.file) (hproc : ProcOk s' c) (hpanic : s'.panicked = s.panicked) :
    Ok s' := by
  refine h.of_changed {c} (fun x hx => hagree x (Finset.notMem_singleton.mp hx))
    (fun x hx d _ => (Finset.mem_singleton.mp hx) ▸ hemb d) (fun f => ?_) hfree
    (fun x hx => (Finset.mem_singleton.mp hx) ▸ hproc) hpanic
  simpa only [Finset.sum_singleton] using hbal f


/-- `Ok.of_changed` for a step of `c` that also changes `np`, its child or the process slot it
takes, neither an embryo of a third process. -/
theorem Ok.of_pair {s s' : Sys ι} (h : Ok s) {c np : ι} (hne : np ≠ c)
    (hagree : ∀ x, x ≠ c → x ≠ np → s.Agree s' x)
    (hemb : ∀ d, d ≠ c → s.pc c ≠ .embryo d ∧ s.pc np ≠ .embryo d)
    (hbal : ∀ f, (s'.file f).ref + (s.share c f + s.share np f) =
      (s.file f).ref + (s'.share c f + s'.share np f))
    (hfree : FreeNone s'.file) (hc : ProcOk s' c) (hn : ProcOk s' np)
    (hpanic : s'.panicked = s.panicked) : Ok s' := by
  refine h.of_changed {c, np} (fun x hx => ?_) (fun x hx d hd => ?_) (fun f => ?_) hfree
    (fun x hx => ?_) hpanic
  · simp only [Finset.mem_insert, Finset.mem_singleton, not_or] at hx
    exact hagree x hx.1 hx.2
  · simp only [Finset.mem_insert, Finset.mem_singleton, not_or] at hx hd
    rcases hx with rfl | rfl
    · exact (hemb d hd.1).1
    · exact (hemb d hd.1).2
  · rw [Finset.sum_pair (Ne.symm hne), Finset.sum_pair (Ne.symm hne)]
    exact hbal f
  · simp only [Finset.mem_insert, Finset.mem_singleton] at hx
    rcases hx with rfl | rfl
    · exact hc
    · exact hn

/-! ## The steps of each call -/

section Steps

variable {s : Sys ι} {c : ι}

/-- A step of `c` that moves its program point alone, to one that holds the same references. -/
theorem Ok.setPc (h : Ok s) (hu : s.used c = true) {q : Pc ι} (hp : s.pc c = q)
    (hq : ∀ d, q ≠ .embryo d) {p : Pc ι} (hun : p.unbacked = q.unbacked)
    (hheld : ∀ f, p.holds f = q.holds f) (hok : PcOk s c p) : Ok (s.setPc c p) := by
  have hemb : ∀ d, s.pc c ≠ .embryo d := hp ▸ hq
  have hagree : ∀ x, x ≠ c → s.Agree (s.setPc c p) x := fun x hx => by
    simp [Sys.Agree, Function.update_of_ne hx]
  refine h.of_local c hagree hemb (fun f => ?_) h.free ?_ rfl
  · rw [Sys.share_of_used hu, Sys.share_setPc_self hu, hp, hun, hheld, Sys.setPc_file]
  · refine ProcOk.of_used (by simpa using hu) ?_
    rw [Sys.setPc_pc, Function.update_self]
    exact PcOk.of_local hemb hagree rfl hok

/-- Setting the type of an entry someone references: `sys_open` and `pipealloc`. -/
theorem Ok.setType (h : Ok s) {g : Fin NFILE} (hr : 1 ≤ (s.file g).ref) (t : FType) :
    Ok (s.setFile g { s.file g with type := t }) :=
  h.of_changed ∅ (fun x _ => Sys.agree_setFile ..) (by simp)
    (fun f => by simp only [Finset.sum_empty, Nat.add_zero, Sys.setType_ref])
    (h.free.update fun h0 => absurd (show (s.file g).ref = 0 from h0) (by omega)) (by simp) rfl

/-- `filealloc` claims `g` for `c`, whose new program point holds it. -/
theorem Ok.claim (h : Ok s) (hu : s.used c = true) {q : Pc ι} (hp : s.pc c = q)
    (hq : ∀ d, q ≠ .embryo d) {g : Fin NFILE} (hg : s.filealloc = some g) {p : Pc ι}
    (hun : p.unbacked = q.unbacked) (hheld : ∀ f, p.holds f = q.holds f + if g = f then 1 else 0)
    (hok : PcOk s c p) : Ok ((s.claim g).setPc c p) := by
  have hemb : ∀ d, s.pc c ≠ .embryo d := hp ▸ hq
  have hagree : ∀ x, x ≠ c → s.Agree ((s.claim g).setPc c p) x := fun x hx => by
    simp [Sys.Agree, Sys.claim, Function.update_of_ne hx]
  have hu' : (s.claim g).used c = true := hu
  refine h.of_local c hagree hemb (fun f => ?_) (h.free.claim g) ?_ rfl
  · rw [Sys.share_of_used hu, Sys.share_setPc_self hu', Sys.setPc_file,
      Sys.claim_ref (Sys.filealloc_ref hg), hp, hun, hheld]
    simp only [Sys.claim, Sys.setFile_ofile]
    omega
  · refine ProcOk.of_used (by simpa using hu') ?_
    rw [Sys.setPc_pc, Function.update_self]
    exact PcOk.of_local hemb hagree rfl hok

/-- `fdalloc` stores a reference `c`'s call held into an empty slot. -/
theorem Ok.store (h : Ok s) (hu : s.used c = true) {q : Pc ι} (hp : s.pc c = q)
    (hq : ∀ d, q ≠ .embryo d) {fd : Fin NOFILE} (hfd : s.fdalloc c = some fd) {g : Fin NFILE}
    {p : Pc ι} (hun : p.unbacked = none) (hun' : q.unbacked = none)
    (hheld : ∀ f, p.holds f + (if g = f then 1 else 0) = q.holds f)
    (hok : PcOk (s.setOfile c fd (some g)) c p) : Ok ((s.setOfile c fd (some g)).setPc c p) := by
  have hemb : ∀ d, s.pc c ≠ .embryo d := hp ▸ hq
  have hagree : ∀ x, x ≠ c → s.Agree ((s.setOfile c fd (some g)).setPc c p) x := fun x hx => by
    simp [Sys.Agree, Function.update_of_ne hx]
  have hu' : (s.setOfile c fd (some g)).used c = true := hu
  refine h.of_local c hagree hemb (fun f => ?_) h.free ?_ rfl
  · have hs := slotCount_update (s.ofile c) fd (some g) f
    rw [Sys.fdalloc_none hfd] at hs
    have := hheld f
    rw [Sys.share_of_used hu, Sys.share_setPc_self hu', hp, hun, hun']
    simp only [Sys.setPc_file, Sys.setOfile_file, Sys.setOfile_ofile, Function.update_self]
    simp only [reduceCtorEq, if_false, Option.some.injEq, Nat.add_zero] at hs
    omega
  · refine ProcOk.of_used (by simpa using hu') ?_
    rw [Sys.setPc_pc, Function.update_self]
    exact PcOk.of_local (s := s.setOfile c fd (some g)) (by simpa using hemb)
      (fun x hx => by simp [Sys.Agree, Function.update_of_ne hx]) rfl hok

/-- `sys_dup`'s `fdalloc`: the new slot is written before `filedup` backs it. -/
theorem Ok.dupFd (h : Ok s) (hu : s.used c = true) {g : Fin NFILE} {fd fd' : Fin NOFILE}
    (hp : s.pc c = .dupFd g fd) (hfd : s.fdalloc c = some fd') :
    Ok ((s.setOfile c fd' (some g)).setPc c (.dupDup g fd fd')) := by
  have hemb : ∀ d, s.pc c ≠ .embryo d := by simp [hp]
  have hold : s.ofile c fd = some g := h.pcOk_at hu hp
  have hnone := Sys.fdalloc_none hfd
  have hne : fd ≠ fd' := fun he => by
    rw [he, hnone] at hold
    cases hold
  have hagree : ∀ x, x ≠ c →
      s.Agree ((s.setOfile c fd' (some g)).setPc c (.dupDup g fd fd')) x := fun x hx => by
    simp [Sys.Agree, Function.update_of_ne hx]
  have hu' : (s.setOfile c fd' (some g)).used c = true := hu
  refine h.of_local c hagree hemb (fun f => ?_) h.free ?_ rfl
  · have hs := slotCount_skip (s.ofile c) fd' f
    rw [hnone] at hs
    rw [Sys.share_of_used hu, Sys.share_setPc_self hu', hp]
    simp only [Sys.setPc_file, Sys.setOfile_file, Sys.setOfile_ofile, Function.update_self,
      slotCount_update_skip, Pc.unbacked, Pc.holds]
    simp only [reduceCtorEq, if_false, Nat.add_zero] at hs
    omega
  · refine ProcOk.of_used (by simpa using hu') ?_
    rw [Sys.setPc_pc, Function.update_self]
    refine ⟨?_, ?_, hne⟩
    · simpa [Function.update_of_ne hne] using hold
    · simp

/-- `sys_dup`'s `filedup`: the new slot is backed. -/
theorem Ok.dupDup (h : Ok s) (hu : s.used c = true) {g : Fin NFILE} {fd fd' : Fin NOFILE}
    (hp : s.pc c = .dupDup g fd fd') : Ok ((s.filedup g).setPc c .idle) := by
  have hemb : ∀ d, s.pc c ≠ .embryo d := by simp [hp]
  obtain ⟨hfd, hfd', hne⟩ : PcOk s c (.dupDup g fd fd') := h.pcOk_at hu hp
  have hr : 1 ≤ (s.file g).ref := h.ref_pos_of_slot hu hfd (by simp [hp, Pc.unbacked, Ne.symm hne])
  have hagree : ∀ x, x ≠ c → s.Agree ((s.filedup g).setPc c .idle) x := fun x hx => by
    simp [Sys.Agree, Function.update_of_ne hx]
  have hu' : (s.filedup g).used c = true := by simpa using hu
  refine h.of_local c hagree hemb (fun f => ?_) (h.free.filedup hr) ?_
    (by simp [Sys.filedup_panicked hr])
  · have hs := slotCount_skip (s.ofile c) fd' f
    rw [hfd'] at hs
    rw [Sys.share_of_used hu, Sys.share_setPc_self hu', Sys.setPc_file, Sys.filedup_ref hr, hp]
    simp only [Sys.filedup_ofile, Pc.unbacked, Pc.holds]
    simp only [Option.some.injEq] at hs
    omega
  · exact ProcOk.of_used (by simpa using hu') (by simp [PcOk])

/-- `undo` clears the next slot; the reference it held is now the call's to close. -/
theorem Ok.undoClear (h : Ok s) (hu : s.used c = true) {fd : Fin NOFILE} {g : Fin NFILE}
    {slots : List (Fin NOFILE × Fin NFILE)} {fs : List (Fin NFILE)}
    (hp : s.pc c = .undo ((fd, g) :: slots) fs) :
    Ok ((s.setOfile c fd none).setPc c (.undo slots fs)) := by
  have hemb : ∀ d, s.pc c ≠ .embryo d := by simp [hp]
  obtain ⟨hslots, hnodup, hsub⟩ : PcOk s c (.undo ((fd, g) :: slots) fs) := h.pcOk_at hu hp
  have hfd : s.ofile c fd = some g := hslots (fd, g) List.mem_cons_self
  have hagree : ∀ x, x ≠ c → s.Agree ((s.setOfile c fd none).setPc c (.undo slots fs)) x :=
    fun x hx => by simp [Sys.Agree, Function.update_of_ne hx]
  have hu' : (s.setOfile c fd none).used c = true := hu
  refine h.of_local c hagree hemb (fun f => ?_) h.free ?_ rfl
  · have hs := slotCount_update (s.ofile c) fd none f
    rw [hfd] at hs
    have hle := hsub.count_le f
    rw [Sys.share_of_used hu, Sys.share_setPc_self hu', hp]
    simp only [Sys.setPc_file, Sys.setOfile_file, Sys.setOfile_ofile, Function.update_self,
      Pc.unbacked, Pc.holds]
    simp only [Option.some.injEq, reduceCtorEq, if_false, Nat.add_zero] at hs
    simp only [List.map_cons, List.count_cons, beq_iff_eq] at hle ⊢
    omega
  · refine ProcOk.of_used (by simpa using hu') ?_
    rw [Sys.setPc_pc, Function.update_self]
    have hnd := List.nodup_cons.mp hnodup
    refine ⟨fun q hq => ?_, hnd.2, List.sublist_of_cons_sublist hsub⟩
    -- the slots left to clear are other slots than `fd`
    have hq1 : q.1 ≠ fd := by
      rintro he
      exact hnd.1 (List.mem_map.mpr ⟨q, hq, he⟩)
    simpa [Function.update_of_ne hq1] using hslots q (List.mem_cons_of_mem _ hq)

/-- `undo` closes the next reference its call held. -/
theorem Ok.undoClose (h : Ok s) (hu : s.used c = true) {g : Fin NFILE} {fs : List (Fin NFILE)}
    (hp : s.pc c = .undo [] (g :: fs)) : Ok ((s.fileclose g).setPc c (.undo [] fs)) := by
  have hemb : ∀ d, s.pc c ≠ .embryo d := by simp [hp]
  have hr : 1 ≤ (s.file g).ref := h.ref_pos_of_holds (x := c) (by simp [hp, Pc.holds])
  have hagree : ∀ x, x ≠ c → s.Agree ((s.fileclose g).setPc c (.undo [] fs)) x := fun x hx => by
    simp [Sys.Agree, Function.update_of_ne hx]
  have hu' : (s.fileclose g).used c = true := by simpa using hu
  refine h.of_local c hagree hemb (fun f => ?_) (h.free.fileclose hr) ?_
    (by simp [Sys.fileclose_panicked hr])
  · have := Sys.fileclose_ref hr f
    rw [Sys.share_of_used hu, Sys.share_setPc_self hu', Sys.setPc_file, hp]
    simp only [Sys.fileclose_ofile, Pc.unbacked, Pc.holds, List.map_nil, List.count_nil,
      Nat.sub_zero, List.count_cons, beq_iff_eq]
    omega
  · exact ProcOk.of_used (by simpa using hu') (by simp [PcOk])

/-- `kfork`'s `uvmcopy` failed: `freeproc(np)`, whose slots are all still empty. -/
theorem Ok.forkCopyFail (h : Ok s) (hu : s.used c = true) {np : ι}
    (hp : s.pc c = .forkCopy np) : Ok ((s.free np).setPc c .idle) := by
  have hch : Child s c np 0 := h.pcOk_at hu hp
  have hne : np ≠ c := hch.ne
  have hempty : ∀ fd, s.ofile np fd = none := fun fd => hch.empty fd (Nat.zero_le _)
  refine h.of_pair hne (fun x hx hx' => ?_)
    (fun d hd => ⟨by simp [hp], by simp [hch.embryo, Ne.symm hd]⟩) (fun f => ?_) h.free ?_ ?_ rfl
  · simp [Sys.Agree, Function.update_of_ne hx, Function.update_of_ne hx']
  · simp [Sys.share, hu, hp, hch.used, hch.embryo, Function.update_of_ne hne,
      Function.update_of_ne (Ne.symm hne), slotCount_of_empty hempty, Pc.unbacked, Pc.holds]
  · exact ProcOk.of_used (by simpa [Function.update_of_ne (Ne.symm hne)] using hu)
      (by simp [PcOk])
  · refine ⟨fun _ => ⟨by simp [Function.update_of_ne hne], by simpa using hempty⟩, fun hu' => ?_⟩
    simp at hu'

/-- `kfork` copies slot `i`: `filedup`, the reference held until it is stored in the child. -/
theorem Ok.forkDup (h : Ok s) (hu : s.used c = true) {np : ι} {i : Nat} (hi : i < NOFILE)
    {g : Fin NFILE} (hp : s.pc c = .forkDup np i) (ho : s.ofile c ⟨i, hi⟩ = some g) :
    Ok ((s.filedup g).setPc c (.forkStore np ⟨i, hi⟩ g)) := by
  have hemb : ∀ d, s.pc c ≠ .embryo d := by simp [hp]
  have hch : Child s c np i := h.pcOk_at hu hp
  have hr : 1 ≤ (s.file g).ref := h.ref_pos_of_slot hu ho (by simp [hp, Pc.unbacked])
  have hagree : ∀ x, x ≠ c → s.Agree ((s.filedup g).setPc c (.forkStore np ⟨i, hi⟩ g)) x :=
    fun x hx => by simp [Sys.Agree, Function.update_of_ne hx]
  have hu' : (s.filedup g).used c = true := by simpa using hu
  refine h.of_local c hagree hemb (fun f => ?_) (h.free.filedup hr) ?_
    (by simp [Sys.filedup_panicked hr])
  · rw [Sys.share_of_used hu, Sys.share_setPc_self hu', Sys.setPc_file, Sys.filedup_ref hr, hp]
    simp only [Sys.filedup_ofile, Pc.unbacked, Pc.holds, List.count_singleton, beq_iff_eq]
    omega
  · refine ProcOk.of_used (by simpa using hu') ?_
    rw [Sys.setPc_pc, Function.update_self]
    exact PcOk.of_local hemb hagree (by simp) (show PcOk s c (.forkStore np ⟨i, hi⟩ g) from hch)

/-- `kfork` has copied every slot: the child becomes runnable. -/
theorem Ok.forkDone (h : Ok s) (hu : s.used c = true) {np : ι} {i : Nat}
    (hp : s.pc c = .forkDup np i) : Ok ((s.setPc np .idle).setPc c .idle) := by
  have hch : Child s c np i := h.pcOk_at hu hp
  have hne : np ≠ c := hch.ne
  refine h.of_pair hne (fun x hx hx' => ?_)
    (fun d hd => ⟨by simp [hp], by simp [hch.embryo, Ne.symm hd]⟩) (fun f => ?_) h.free ?_ ?_ rfl
  · simp [Sys.Agree, Function.update_of_ne hx, Function.update_of_ne hx']
  · -- the child leaves `embryo` for `idle`, which hold no references either
    simp [Sys.share, hu, hp, hch.used, hch.embryo, Function.update_of_ne hne, Pc.unbacked,
      Pc.holds]
  · exact ProcOk.of_used (by simpa using hu) (by simp [PcOk])
  · exact ProcOk.of_used (by simpa using hch.used) (by simp [Function.update_of_ne hne, PcOk])

/-- `kfork` stores the reference `filedup` returned in the child's slot `i`. -/
theorem Ok.forkStore (h : Ok s) (hu : s.used c = true) {np : ι} {i : Fin NOFILE} {g : Fin NFILE}
    (hp : s.pc c = .forkStore np i g) :
    Ok ((s.setOfile np i (some g)).setPc c (.forkDup np (i.val + 1))) := by
  have hch : Child s c np i.val := h.pcOk_at hu hp
  have hne : np ≠ c := hch.ne
  have hi : s.ofile np i = none := hch.empty i (Nat.le_refl _)
  refine h.of_pair hne (fun x hx hx' => ?_)
    (fun d hd => ⟨by simp [hp], by simp [hch.embryo, Ne.symm hd]⟩) (fun f => ?_) h.free ?_ ?_ rfl
  · simp [Sys.Agree, Function.update_of_ne hx, Function.update_of_ne hx']
  · -- the reference moves from the parent's local to the child's slot `i`
    have hs := slotCount_update (s.ofile np) i (some g) f
    rw [hi] at hs
    simp only [Option.some.injEq, reduceCtorEq, if_false, Nat.add_zero] at hs
    simp only [Sys.share, Sys.setPc_used, Sys.setOfile_used, Sys.setPc_pc, Sys.setOfile_pc,
      Sys.setPc_ofile, Sys.setOfile_ofile, Sys.setPc_file, Sys.setOfile_file, Function.update_self,
      Function.update_of_ne hne, Function.update_of_ne (Ne.symm hne), hu, hp, hch.used,
      hch.embryo, if_true, Pc.unbacked, Pc.holds, List.count_singleton, beq_iff_eq]
    omega
  · refine ProcOk.of_used (by simpa using hu) ?_
    simp only [Sys.setPc_pc, Function.update_self]
    -- the child's slots from `i + 1` on are still empty
    refine ⟨hne, by simpa using hch.used, by simp [Function.update_of_ne hne, hch.embryo],
      fun fd hfd => ?_⟩
    have hfi : fd ≠ i := fun he => by rw [he] at hfd; omega
    simpa [Function.update_of_ne hfi] using hch.empty fd (by omega)
  · exact ProcOk.of_used (by simpa using hch.used) (by simp [Function.update_of_ne hne,
      hch.embryo, PcOk])

/-- `kexit` closes slot `fd`; the slot keeps pointing to the entry until it is cleared. -/
theorem Ok.exitClose (h : Ok s) (hu : s.used c = true) {fd : Nat} (hfd : fd < NOFILE)
    {g : Fin NFILE} (hp : s.pc c = .exitClose fd) (ho : s.ofile c ⟨fd, hfd⟩ = some g) :
    Ok ((s.fileclose g).setPc c (.exitClear ⟨fd, hfd⟩ g)) := by
  have hemb : ∀ d, s.pc c ≠ .embryo d := by simp [hp]
  have hlow : PcOk s c (.exitClose fd) := h.pcOk_at hu hp
  have hr : 1 ≤ (s.file g).ref := h.ref_pos_of_slot hu ho (by simp [hp, Pc.unbacked])
  have hagree : ∀ x, x ≠ c → s.Agree ((s.fileclose g).setPc c (.exitClear ⟨fd, hfd⟩ g)) x :=
    fun x hx => by simp [Sys.Agree, Function.update_of_ne hx]
  have hu' : (s.fileclose g).used c = true := by simpa using hu
  refine h.of_local c hagree hemb (fun f => ?_) (h.free.fileclose hr) ?_
    (by simp [Sys.fileclose_panicked hr])
  · have := Sys.fileclose_ref hr f
    have hs := slotCount_skip (s.ofile c) ⟨fd, hfd⟩ f
    rw [ho] at hs
    simp only [Option.some.injEq] at hs
    rw [Sys.share_of_used hu, Sys.share_setPc_self hu', Sys.setPc_file, hp]
    simp only [Sys.fileclose_ofile, Pc.unbacked, Pc.holds]
    omega
  · refine ProcOk.of_used (by simpa using hu') ?_
    rw [Sys.setPc_pc, Function.update_self]
    exact ⟨by simpa using ho, fun fd' hfd' => by simpa using hlow fd' hfd'⟩

/-- `kexit` clears slot `fd`, which no longer counted. -/
theorem Ok.exitClear (h : Ok s) (hu : s.used c = true) {fd : Fin NOFILE} {g : Fin NFILE}
    (hp : s.pc c = .exitClear fd g) :
    Ok ((s.setOfile c fd none).setPc c (.exitClose (fd.val + 1))) := by
  have hemb : ∀ d, s.pc c ≠ .embryo d := by simp [hp]
  obtain ⟨ho, hlow⟩ : PcOk s c (.exitClear fd g) := h.pcOk_at hu hp
  have hagree : ∀ x, x ≠ c →
      s.Agree ((s.setOfile c fd none).setPc c (.exitClose (fd.val + 1))) x := fun x hx => by
    simp [Sys.Agree, Function.update_of_ne hx]
  have hu' : (s.setOfile c fd none).used c = true := hu
  refine h.of_local c hagree hemb (fun f => ?_) h.free ?_ rfl
  · have h1 := slotCount_update (s.ofile c) fd none f
    have h2 := slotCount_skip (s.ofile c) fd f
    simp only [reduceCtorEq, if_false, Nat.add_zero] at h1
    rw [Sys.share_of_used hu, Sys.share_setPc_self hu', hp]
    simp only [Sys.setPc_file, Sys.setOfile_file, Sys.setOfile_ofile, Function.update_self,
      Pc.unbacked, Pc.holds]
    omega
  · refine ProcOk.of_used (by simpa using hu') ?_
    rw [Sys.setPc_pc, Function.update_self]
    intro fd' hfd'
    by_cases he : fd' = fd
    · simp [he]
    · have hlt : fd'.val < fd.val := by
        have : fd'.val ≠ fd.val := fun h' => he (Fin.ext h')
        omega
      simpa [Function.update_of_ne he] using hlow fd' hlt

/-- `kfork`'s `allocproc` takes the unused process slot `np`. -/
theorem Ok.fork (h : Ok s) (hu : s.used c = true) (hidle : s.pc c = .idle) {np : ι}
    (hnp : s.used np = false) :
    Ok (({ s with used := Function.update s.used np true }.setPc np (.embryo c)).setPc c
      (.forkCopy np)) := by
  have hne : np ≠ c := fun he => by rw [he, hu] at hnp; cases hnp
  obtain ⟨hidle', hempty⟩ := (h.proc np).1 hnp
  refine h.of_pair hne (fun x hx hx' => ?_) (fun d _ => ⟨by simp [hidle], by simp [hidle']⟩)
    (fun f => ?_) h.free ?_ ?_ rfl
  · simp [Sys.Agree, Function.update_of_ne hx, Function.update_of_ne hx']
  · simp [Sys.share, hu, hnp, hidle, hidle', Function.update_of_ne hne,
      Function.update_of_ne (Ne.symm hne), slotCount_of_empty hempty, Pc.unbacked, Pc.holds]
  · refine ProcOk.of_used (by simpa [Function.update_of_ne (Ne.symm hne)] using hu) ?_
    simp only [Sys.setPc_pc, Function.update_self]
    exact ⟨hne, by simp, by simp [Function.update_of_ne hne], fun fd _ => by simpa using hempty fd⟩
  · exact ProcOk.of_used (by simp) (by simp [Function.update_of_ne hne, PcOk])

/-- `kwait` frees the zombie `p`, whose slots `kexit` has all cleared. -/
theorem Ok.reap (h : Ok s) {p : ι} (hp : s.pc p = .zombie) : Ok (s.free p) := by
  have hu : s.used p = true := by
    cases hup : s.used p
    · have := ((h.proc p).1 hup).1
      rw [hp] at this
      cases this
    · rfl
  have hempty : ∀ fd, s.ofile p fd = none := h.pcOk_at hu hp
  refine h.of_local p (fun x hx => ?_) (by simp [hp]) (fun f => ?_) h.free ?_ rfl
  · simp [Sys.Agree, Function.update_of_ne hx]
  · simp [Sys.share, hu, hp, slotCount_of_empty hempty, Pc.holds]
  · exact ⟨fun _ => ⟨by simp, by simpa using hempty⟩, fun hu' => by simp at hu'⟩

omit [DecidableEq ι] in
/-- `panic("init exiting")` stops the machine where it stands. -/
theorem Ok.panicInit (h : Ok s) : Ok (s.panic "init exiting") where
  refs := h.refs
  free := h.free
  proc x := ⟨(h.proc x).1, fun hu =>
    PcOk.congr (show (s.panic "init exiting").ofile x = s.ofile x from rfl)
      (fun _ _ => ⟨rfl, rfl, rfl⟩) ((h.proc x).2 hu)⟩
  panicked msg hm := by
    cases hm
    rfl

/-- The next step of the call in progress, one case per program point of `Sys.run`. -/
theorem Ok.run (h : Ok s) (hu : s.used c = true) {ok : Bool} {s' : Sys ι}
    (hs : s.run c ok = some s') : Ok s' := by
  unfold Sys.run at hs
  cases hp : s.pc c with
  | idle | embryo _ | zombie => simp [hp] at hs
  | openAlloc dev =>
    simp only [hp] at hs
    cases hg : s.filealloc with
    | none =>
      simp only [hg, Option.some.injEq] at hs
      subst hs
      exact h.setPc hu hp (by simp) rfl (fun _ => rfl) trivial
    | some g =>
      simp only [hg, Option.some.injEq] at hs
      subst hs
      exact h.claim hu hp (by simp) hg rfl (by simp [Pc.holds, List.count_singleton]) trivial
  | openFd g dev =>
    simp only [hp] at hs
    cases hfd : s.fdalloc c with
    | none =>
      simp only [hfd, Option.some.injEq] at hs
      subst hs
      exact h.setPc hu hp (by simp) rfl (by simp [Pc.holds]) ⟨by simp, List.nodup_nil, by simp⟩
    | some fd =>
      simp only [hfd, Option.some.injEq] at hs
      subst hs
      exact h.store hu hp (by simp) hfd rfl rfl (by simp [Pc.holds, List.count_singleton])
        ⟨fd, by simp⟩
  | openType g dev =>
    simp only [hp, Option.some.injEq] at hs
    subst hs
    obtain ⟨fd, hfd⟩ : PcOk s c (.openType g dev) := h.pcOk_at hu hp
    have hr := h.ref_pos_of_slot hu hfd (by simp [hp, Pc.unbacked])
    exact (h.setType hr _).setPc hu hp (by simp) rfl (fun _ => rfl) trivial
  | dupFd g fd =>
    simp only [hp] at hs
    cases hfd : s.fdalloc c with
    | none =>
      simp only [hfd, Option.some.injEq] at hs
      subst hs
      exact h.setPc hu hp (by simp) rfl (fun _ => rfl) trivial
    | some fd' =>
      simp only [hfd, Option.some.injEq] at hs
      subst hs
      exact h.dupFd hu hp hfd
  | dupDup g fd fd' =>
    simp only [hp, Option.some.injEq] at hs
    subst hs
    exact h.dupDup hu hp
  | pipeAlloc0 =>
    simp only [hp] at hs
    cases hg : s.filealloc with
    | none =>
      simp only [hg, Option.some.injEq] at hs
      subst hs
      exact h.setPc hu hp (by simp) rfl (fun _ => rfl) trivial
    | some g =>
      simp only [hg, Option.some.injEq] at hs
      subst hs
      exact h.claim hu hp (by simp) hg rfl (by simp [Pc.holds, List.count_singleton]) trivial
  | pipeAlloc1 f0 =>
    simp only [hp] at hs
    cases hg : s.filealloc with
    | none =>
      simp only [hg, Option.some.injEq] at hs
      subst hs
      exact h.setPc hu hp (by simp) rfl (by simp [Pc.holds]) ⟨by simp, List.nodup_nil, by simp⟩
    | some g =>
      simp only [hg, Option.some.injEq] at hs
      subst hs
      exact h.claim hu hp (by simp) hg rfl (fun f => by simp [Pc.holds, List.count_cons]; omega)
        trivial
  | pipeKalloc f0 f1 =>
    simp only [hp] at hs
    cases ok
    · simp only [Bool.false_eq_true, if_false, Option.some.injEq] at hs
      subst hs
      exact h.setPc hu hp (by simp) rfl (by simp [Pc.holds]) ⟨by simp, List.nodup_nil, by simp⟩
    · simp only [if_true, Option.some.injEq] at hs
      subst hs
      -- both entries are the call's own, so their types may be set
      have h0 := h.ref_pos_of_holds (x := c) (f := f0) (by simp [hp, Pc.holds])
      have h1 := h.ref_pos_of_holds (x := c) (f := f1) (by simp [hp, Pc.holds])
      have h' := h.setType h0 .pipe
      exact (h'.setType (by rwa [Sys.setType_ref]) .pipe).setPc hu hp (by simp) rfl
        (fun _ => rfl) trivial
  | pipeFd0 rf wf =>
    simp only [hp] at hs
    cases hfd : s.fdalloc c with
    | none =>
      simp only [hfd, Option.some.injEq] at hs
      subst hs
      exact h.setPc hu hp (by simp) rfl (by simp [Pc.holds]) ⟨by simp, List.nodup_nil, by simp⟩
    | some fd0 =>
      simp only [hfd, Option.some.injEq] at hs
      subst hs
      exact h.store hu hp (by simp) hfd rfl rfl (by simp [Pc.holds, List.count_cons])
        (by simp [PcOk])
  | pipeFd1 rf wf fd0 =>
    simp only [hp] at hs
    have hfd0 : s.ofile c fd0 = some rf := h.pcOk_at hu hp
    cases hfd : s.fdalloc c with
    | none =>
      simp only [hfd, Option.some.injEq] at hs
      subst hs
      exact h.setPc hu hp (by simp) rfl (by simp [Pc.holds, List.count_cons])
        ⟨by simpa using hfd0, by simp, by simp⟩
    | some fd1 =>
      simp only [hfd, Option.some.injEq] at hs
      subst hs
      have hne : fd0 ≠ fd1 := fun he => by
        rw [he, Sys.fdalloc_none hfd] at hfd0
        cases hfd0
      exact h.store hu hp (by simp) hfd rfl rfl (by simp [Pc.holds, List.count_singleton])
        ⟨by simpa [Function.update_of_ne hne] using hfd0, by simp, hne⟩
  | pipeCopy rf wf fd0 fd1 =>
    simp only [hp] at hs
    obtain ⟨hfd0, hfd1, hne⟩ : PcOk s c (.pipeCopy rf wf fd0 fd1) := h.pcOk_at hu hp
    cases ok
    · simp only [Bool.false_eq_true, if_false, Option.some.injEq] at hs
      subst hs
      exact h.setPc hu hp (by simp) rfl (by simp [Pc.holds])
        ⟨by simpa [hfd0] using hfd1, by simpa using hne, by simp⟩
    · simp only [if_true, Option.some.injEq] at hs
      subst hs
      exact h.setPc hu hp (by simp) rfl (fun _ => rfl) trivial
  | undo slots fs =>
    simp only [hp] at hs
    match slots, fs, hp, hs with
    | (fd, g) :: slots, fs, hp, hs =>
      simp only [Option.some.injEq] at hs
      subst hs
      exact h.undoClear hu hp
    | [], g :: fs, hp, hs =>
      simp only [Option.some.injEq] at hs
      subst hs
      exact h.undoClose hu hp
    | [], [], hp, hs =>
      simp only [Option.some.injEq] at hs
      subst hs
      exact h.setPc hu hp (by simp) rfl (by simp [Pc.holds]) trivial
  | forkCopy np =>
    simp only [hp] at hs
    cases ok
    · simp only [Bool.false_eq_true, if_false, Option.some.injEq] at hs
      subst hs
      exact h.forkCopyFail hu hp
    · simp only [if_true, Option.some.injEq] at hs
      subst hs
      exact h.setPc hu hp (by simp) rfl (fun _ => rfl) (show Child s c np 0 from h.pcOk_at hu hp)
  | forkDup np i =>
    simp only [hp] at hs
    have hch : Child s c np i := h.pcOk_at hu hp
    by_cases hi : i < NOFILE
    · rw [dif_pos hi] at hs
      cases ho : s.ofile c ⟨i, hi⟩ with
      | none =>
        simp only [ho, Option.some.injEq] at hs
        subst hs
        -- the child's slot `i` stays empty, as the parent's is
        exact h.setPc hu hp (by simp) rfl (fun _ => rfl) (hch.mono (Nat.le_succ i))
      | some g =>
        simp only [ho, Option.some.injEq] at hs
        subst hs
        exact h.forkDup hu hi hp ho
    · rw [dif_neg hi, Option.some.injEq] at hs
      subst hs
      exact h.forkDone hu hp
  | forkStore np i g =>
    simp only [hp, Option.some.injEq] at hs
    subst hs
    exact h.forkStore hu hp
  | exitClose fd =>
    simp only [hp] at hs
    have hlow : ∀ fd' : Fin NOFILE, fd'.val < fd → s.ofile c fd' = none := h.pcOk_at hu hp
    by_cases hfd : fd < NOFILE
    · rw [dif_pos hfd] at hs
      cases ho : s.ofile c ⟨fd, hfd⟩ with
      | none =>
        simp only [ho, Option.some.injEq] at hs
        subst hs
        refine h.setPc hu hp (by simp) rfl (fun _ => rfl) fun fd' hfd' => ?_
        rcases Nat.lt_succ_iff_lt_or_eq.mp hfd' with hlt | heq
        · exact hlow fd' hlt
        · rw [show fd' = ⟨fd, hfd⟩ from Fin.ext heq]
          exact ho
      | some g =>
        simp only [ho, Option.some.injEq] at hs
        subst hs
        exact h.exitClose hu hfd hp ho
    · rw [dif_neg hfd, Option.some.injEq] at hs
      subst hs
      exact h.setPc hu hp (by simp) rfl (fun _ => rfl) fun fd' => hlow fd' (by omega)
  | exitClear fd g =>
    simp only [hp, Option.some.injEq] at hs
    subst hs
    exact h.exitClear hu hp

/-- An idle process starts a call. -/
theorem Ok.start (h : Ok s) (hu : s.used c = true) (hidle : s.pc c = .idle) {a : Act ι}
    {s' : Sys ι} (hs : s.start c a = some s') : Ok s' := by
  cases a with
  | «open» dev =>
    simp only [Sys.start, Option.some.injEq] at hs
    subst hs
    exact h.setPc hu hidle (by simp) rfl (fun _ => rfl) trivial
  | dup fd =>
    cases ho : s.ofile c fd with
    | none => simp [Sys.start, ho] at hs
    | some g =>
      simp only [Sys.start, ho, Option.some.injEq] at hs
      subst hs
      exact h.setPc hu hidle (by simp) rfl (fun _ => rfl) ho
  | close fd =>
    cases ho : s.ofile c fd with
    | none => simp [Sys.start, ho] at hs
    | some g =>
      simp only [Sys.start, ho, Option.some.injEq] at hs
      subst hs
      -- `sys_close` clears the slot and closes what it held: nothing held beyond the slot
      exact h.setPc hu hidle (by simp) rfl (by simp [Pc.holds])
        ⟨by simpa using ho, by simp, by simp⟩
  | pipe =>
    simp only [Sys.start, Option.some.injEq] at hs
    subst hs
    exact h.setPc hu hidle (by simp) rfl (fun _ => rfl) trivial
  | fork np =>
    cases hnp : s.used np with
    | true => simp [Sys.start, hnp] at hs
    | false =>
      simp only [Sys.start, hnp, Bool.false_eq_true, if_false, Option.some.injEq] at hs
      subst hs
      exact h.fork hu hidle hnp
  | exit =>
    by_cases hi : c = s.initproc
    · simp only [Sys.start, hi, if_true, Option.some.injEq] at hs
      subst hs
      exact h.panicInit
    · simp only [Sys.start, hi, if_false, Option.some.injEq] at hs
      subst hs
      exact h.setPc hu hidle (by simp) rfl (fun _ => rfl)
        fun _ hlt => absurd hlt (Nat.not_lt_zero _)
  | reap p =>
    by_cases hp : s.pc p = .zombie
    · simp only [Sys.start, hp, if_true, Option.some.injEq] at hs
      subst hs
      exact h.reap hp
    · simp [Sys.start, hp] at hs
  | run _ => simp [Sys.start] at hs

/-- Every step keeps the table accounted for. -/
theorem Ok.step (h : Ok s) {a : Act ι} {s' : Sys ι} (hs : Ftable.step s c a = some s') :
    Ok s' := by
  unfold Ftable.step at hs
  by_cases hgo : s.panicked.isSome ∨ s.used c = false
  · rw [if_pos hgo] at hs
    cases hs
  rw [if_neg hgo] at hs
  have hu : s.used c = true := by simpa using (not_or.mp hgo).2
  cases a
  case run ok => exact h.run hu hs
  -- every other action starts a call, from an idle process only
  all_goals
    dsimp only at hs
    split at hs
    · exact h.start hu ‹_› hs
    · cases hs

end Steps

theorem ok_init (first : ι) : Ok (Sys.init first) where
  refs f := by simp [Sys.init, Sys.share, slotCount, Pc.holds]
  free _ _ := rfl
  proc _ := ⟨fun _ => ⟨rfl, fun _ => rfl⟩, fun _ => trivial⟩
  panicked _ hm := by cases hm

theorem ok_of_reachable {first : ι} {s : Sys ι} (h : Reachable first s) : Ok s := by
  induction h with
  | init => exact ok_init first
  | step c a _ hs ih => exact ih.step hs

omit [Fintype ι] in
theorem reachable_runSteps {first : ι} {s : Sys ι} (h : Reachable first s) (as : List (ι × Act ι)) :
    Reachable first (runSteps (fun s x => step s x.1 x.2) s as) :=
  runSteps_induction (fun _ x _ hs hx => .step x.1 x.2 hs hx) as h

/-- In every reachable state each entry's `ref` is the number of slots of used processes that
point to it, but for the slot a call has written and not backed, plus the references calls in
progress hold; an entry no one references has type `FD_NONE`; and neither `filedup` nor
`fileclose` has panicked. -/
theorem ftable_refs_accounted {first : ι} {s : Sys ι} (h : Reachable first s) :
    (∀ f, (s.file f).ref =
      ∑ x, ((if s.used x then slotCount (s.ofile x) (s.pc x).unbacked f else 0) +
        (s.pc x).holds f)) ∧
    (∀ f, (s.file f).ref = 0 → (s.file f).type = .none) ∧
    (∀ msg, s.panicked = some msg → msg = "init exiting") :=
  let hok := ok_of_reachable h
  ⟨hok.refs, hok.free, hok.panicked⟩

/-- `initproc` (process 0) opens a file and forks process 1, which copies the slot; process 1
exits and gives up its reference, and before it clears its slot process 0 closes the file. -/
def exitWindow : Sys (Fin 2) :=
  runSteps (fun s x => step s x.1 x.2) (Sys.init 0)
    ([(0, Act.open false), (0, Act.run true), (0, Act.run true), (0, Act.run true),
        (0, Act.fork 1)] ++
      List.replicate 19 (0, Act.run true) ++
      [(1, Act.exit), (1, Act.run true), (0, Act.close 0), (0, Act.run true), (0, Act.run true),
        (0, Act.run true)])

theorem exitWindow_refs_accounted :
    Reachable 0 exitWindow ∧
    (∀ f, (exitWindow.file f).ref =
      ∑ x, ((if exitWindow.used x then
          slotCount (exitWindow.ofile x) (exitWindow.pc x).unbacked f else 0) +
        (exitWindow.pc x).holds f)) ∧
    (∀ f, (exitWindow.file f).ref = 0 → (exitWindow.file f).type = .none) ∧
    (∀ msg, exitWindow.panicked = some msg → msg = "init exiting") :=
  have hr : Reachable 0 exitWindow := reachable_runSteps .init _
  ⟨hr, ftable_refs_accounted hr⟩

/-- Entry 0 is free, yet process 1, still in use, has a slot that points to it. -/
theorem kexit_slot_outlives_entry :
    Reachable 0 exitWindow ∧ exitWindow.used 1 = true ∧ exitWindow.ofile 1 0 = some 0 ∧
      (exitWindow.file 0).ref = 0 ∧ (exitWindow.file 0).type = .none :=
  ⟨reachable_runSteps .init _, by decide, by decide, by decide,
    by decide⟩

end Xv6.Ftable
