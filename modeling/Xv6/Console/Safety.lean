import Xv6.Console.Basic
import Xv6.Lib.Run

/-!
# Xv6.Console.Safety — the three indices and where committed bytes go

Every state the console reaches satisfies `Inv`:
- `r ≤ w ≤ e ≤ r + INPUT_BUF_SIZE`, as distances from `r` in `uint` arithmetic (`Cons.Ok`);
- the bytes taken below `r`, followed by those from `r` to `w`, are the committed bytes;
- the bytes delivered to readers are among those taken, in order;
- `cons.lock` is held by exactly the reader at a point that holds it.

Erasing only moves `e` back, and never below `w` (`Erased`); input only moves `w` forward and
leaves the committed bytes alone (`Grown`).

A byte taken is not always delivered: `consoleread` advances `r` before `either_copyout`, and
when the copy fails it breaks out of the loop with the byte gone (`consoleread_loses_byte`).
-/

namespace Xv6.Console

open Xv6.Lib

/-! ## The indices -/

/-- `r ≤ w ≤ e ≤ r + INPUT_BUF_SIZE`, as distances from `r` in `uint` arithmetic. -/
structure Cons.Ok (cons : Cons) : Prop where
  w_le_e : (cons.w - cons.r).toNat ≤ (cons.e - cons.r).toNat
  e_le : (cons.e - cons.r).toNat ≤ INPUT_BUF_SIZE

variable {cons cons' cons'' : Cons}

theorem Cons.Ok.w_lt_e (h : cons.Ok) (he : cons.e ≠ cons.w) :
    (cons.w - cons.r).toNat < (cons.e - cons.r).toNat :=
  lt_of_le_of_ne h.w_le_e fun hd => he (word_dist_inj hd).symm

/-- When `e` is at `r`, so is `w`. -/
theorem Cons.Ok.w_eq_r (h : cons.Ok) (her : cons.e = cons.r) : cons.w = cons.r := by
  have hle := h.w_le_e
  rw [her, UInt32.sub_self, UInt32.toNat_zero, Nat.le_zero, word_dist_eq_zero] at hle
  exact hle.symm

theorem Cons.Ok.e_ne_r (h : cons.Ok) (hw : cons.r ≠ cons.w) : cons.e ≠ cons.r :=
  fun her => hw (h.w_eq_r her).symm

/-- `cons'` is `cons` with part of the line being edited erased: only `e` moves, back, and not
below `w`. -/
structure Erased (cons cons' : Cons) : Prop where
  buf : cons'.buf = cons.buf
  r : cons'.r = cons.r
  w : cons'.w = cons.w
  ok : cons'.Ok
  e_le : (cons'.e - cons'.r).toNat ≤ (cons.e - cons.r).toNat

theorem Erased.refl (h : cons.Ok) : Erased cons cons :=
  ⟨rfl, rfl, rfl, h, le_rfl⟩

theorem Erased.trans (h₁ : Erased cons cons') (h₂ : Erased cons' cons'') : Erased cons cons'' :=
  ⟨h₂.buf.trans h₁.buf, h₂.r.trans h₁.r, h₂.w.trans h₁.w, h₂.ok, h₂.e_le.trans h₁.e_le⟩

/-- One `cons.e--` past the guard `cons.e != cons.w`. -/
theorem Cons.Ok.erase (h : cons.Ok) (he : cons.e ≠ cons.w) :
    Erased cons { cons with e := cons.e - 1 } := by
  have her : cons.e ≠ cons.r := fun her => he (her.trans (h.w_eq_r her).symm)
  have hd : (cons.e - 1 - cons.r).toNat = (cons.e - cons.r).toNat - 1 := word_dist_dec her
  have hlt := h.w_lt_e he
  have hle := h.e_le
  refine ⟨rfl, rfl, rfl, ⟨?_, ?_⟩, ?_⟩
  · show (cons.w - cons.r).toNat ≤ (cons.e - 1 - cons.r).toNat
    omega
  · show (cons.e - 1 - cons.r).toNat ≤ INPUT_BUF_SIZE
    omega
  · show (cons.e - 1 - cons.r).toNat ≤ (cons.e - cons.r).toNat
    omega

/-- `C('U')` erases back to `w` or to the last newline. -/
theorem Cons.Ok.killLine (h : cons.Ok) : Erased cons cons.killLine := by
  induction cons using Cons.killLine.induct with
  | case1 cons hcond ih =>
    rw [Cons.killLine, dif_pos hcond]
    have h₁ := h.erase hcond.1
    exact h₁.trans (ih h₁.ok)
  | case2 cons hcond =>
    rw [Cons.killLine, dif_neg hcond]
    exact Erased.refl h

/-- `cons'` is `cons` with input added: `r` and the committed bytes stay, `w` moves forward. -/
structure Grown (cons cons' : Cons) : Prop where
  r : cons'.r = cons.r
  ok : cons'.Ok
  w_le : (cons.w - cons.r).toNat ≤ (cons'.w - cons.r).toNat
  window : ringView cons'.buf cons.r.toNat (cons.w - cons.r).toNat = cons.window

theorem Erased.grown (h : Erased cons cons') : Grown cons cons' where
  r := h.r
  ok := h.ok
  w_le := by rw [h.w]
  window := by rw [h.buf]; rfl

/-- The `default` case stores at `e`, past `w` and less than a full buffer ahead of `r`. -/
theorem Cons.Ok.store (h : cons.Ok) (c : UInt8) : Grown cons (cons.store c) := by
  unfold Cons.store
  split
  · rename_i hroom
    have hlt : (cons.e - cons.r).toNat < INPUT_BUF_SIZE := hroom.2
    have hsucc : (cons.e + 1 - cons.r).toNat = (cons.e - cons.r).toNat + 1 := by
      apply word_dist_succ
      change _ < 128 at hlt
      omega
    have hw := h.w_le_e
    dsimp only
    -- the byte stored: `'\r'` becomes `'\n'`
    generalize (if c = '\r'.toUInt8 then '\n'.toUInt8 else c) = ch
    have hwin := ringView_word_update cons.buf input_buf_size_dvd h.w_le_e hlt ch
    split
    · -- the line is committed: `w` moves up to the new `e`
      refine ⟨rfl, ⟨le_rfl, ?_⟩, ?_, hwin⟩
      · show (cons.e + 1 - cons.r).toNat ≤ INPUT_BUF_SIZE
        omega
      · show (cons.w - cons.r).toNat ≤ (cons.e + 1 - cons.r).toNat
        omega
    · refine ⟨rfl, ⟨?_, ?_⟩, le_rfl, hwin⟩
      · show (cons.w - cons.r).toNat ≤ (cons.e + 1 - cons.r).toNat
        omega
      · show (cons.e + 1 - cons.r).toNat ≤ INPUT_BUF_SIZE
        omega
  · exact (Erased.refl h).grown

/-- Backspace, delete and kill-line only move `e` back, never below `w`. -/
theorem Cons.Ok.consoleintr_erase (h : cons.Ok) {c : UInt8}
    (hc : c = C 'U' ∨ c = C 'H' ∨ c = 0x7f) : Erased cons (cons.consoleintr c) := by
  unfold Cons.consoleintr
  rcases hc with rfl | hc
  · rw [if_neg (by decide), if_pos rfl]
    exact h.killLine
  · have hp : c ≠ C 'P' := by rcases hc with rfl | rfl <;> decide
    have hu : c ≠ C 'U' := by rcases hc with rfl | rfl <;> decide
    rw [if_neg hp, if_neg hu, if_pos hc]
    split
    · exact h.erase ‹_›
    · exact Erased.refl h

theorem Cons.Ok.consoleintr (h : cons.Ok) (c : UInt8) : Grown cons (cons.consoleintr c) := by
  by_cases hc : c = C 'U' ∨ c = C 'H' ∨ c = 0x7f
  · exact (h.consoleintr_erase hc).grown
  · unfold Cons.consoleintr
    split
    · exact (Erased.refl h).grown
    · rw [if_neg fun hu => hc (Or.inl hu), if_neg fun hh => hc (Or.inr hh)]
      exact h.store c

/-- Input appends to the committed bytes what moved below `w`. -/
theorem Grown.window_eq (h : Grown cons cons') :
    cons'.window = cons.window ++ ringView cons'.buf cons.w.toNat (cons'.w - cons.w).toNat := by
  show ringView cons'.buf cons'.r.toNat (cons'.w - cons'.r).toNat = _
  rw [h.r, ringView_word_split cons'.buf input_buf_size_dvd h.w_le, h.window]

/-- `cons.r++` below `w`. -/
theorem Cons.Ok.take (h : cons.Ok) (hrw : cons.r ≠ cons.w) :
    ({ cons with r := cons.r + 1 } : Cons).Ok := by
  have hw := word_dist_pred hrw
  have he := word_dist_pred (h.e_ne_r hrw).symm
  have hle := h.w_le_e
  have hbuf := h.e_le
  constructor
  · show (cons.w - (cons.r + 1)).toNat ≤ (cons.e - (cons.r + 1)).toNat
    omega
  · show (cons.e - (cons.r + 1)).toNat ≤ INPUT_BUF_SIZE
    omega

/-- Taking at `r` removes the head of the committed bytes. -/
theorem Cons.window_take (hrw : cons.r ≠ cons.w) :
    cons.window =
      cons.buf (slot INPUT_BUF_SIZE cons.r.toNat) :: ({ cons with r := cons.r + 1 } : Cons).window :=
  ringView_word_take cons.buf input_buf_size_dvd hrw

/-! ## The buffer and the history -/

/-- What the buffer and the history variables satisfy together. -/
structure BufInv (cons : Cons) (committed taken delivered : List UInt8) : Prop where
  ok : cons.Ok
  history : taken ++ cons.window = committed
  sublist : List.Sublist delivered taken

section BufInv

variable {committed taken delivered : List UInt8}

theorem BufInv.consoleintr (h : BufInv cons committed taken delivered) (c : UInt8) :
    BufInv (cons.consoleintr c)
      (committed ++ ringView (cons.consoleintr c).buf cons.w.toNat
        ((cons.consoleintr c).w - cons.w).toNat) taken delivered := by
  have hg := h.ok.consoleintr c
  refine ⟨hg.ok, ?_, h.sublist⟩
  rw [hg.window_eq, ← List.append_assoc, h.history]

/-- A reader takes the byte at `r`, and copies out some of what was taken. -/
theorem BufInv.take (h : BufInv cons committed taken delivered) (hrw : cons.r ≠ cons.w)
    {delivered' : List UInt8}
    (hd : List.Sublist delivered' (taken ++ [cons.buf (slot INPUT_BUF_SIZE cons.r.toNat)])) :
    BufInv { cons with r := cons.r + 1 } committed
      (taken ++ [cons.buf (slot INPUT_BUF_SIZE cons.r.toNat)]) delivered' := by
  refine ⟨h.ok.take hrw, ?_, hd⟩
  rw [List.append_assoc, List.singleton_append, ← Cons.window_take hrw, h.history]

end BufInv

/-! ## The readers -/

/-- What every reachable state satisfies. -/
structure Inv {ι : Type*} (s : Sys ι) : Prop where
  buf : BufInv s.cons s.committed s.taken s.delivered
  lock_ok : LockOk Pc.Holds s.lock s.pc

variable {ι : Type*} [DecidableEq ι] {s s' : Sys ι}

omit [DecidableEq ι] in
theorem inv_init (killed : ι → Bool) : Inv (Sys.init killed) where
  buf := ⟨⟨le_rfl, show ((0 : UInt32) - 0).toNat ≤ 128 by decide⟩,
    by simp [Sys.init, Cons.window], List.Sublist.slnil⟩
  lock_ok c := iff_of_false (by simp [Sys.init]) (by simp [Sys.init, Pc.Holds])

/-- One iteration of `consoleread`'s loop by the holder of `cons.lock`. -/
theorem Inv.consolereadLoop (hinv : Inv s) {c : ι} (hc : s.lock = some c) (target n : Int)
    (dst : Nat → Bool) : Inv (s.consolereadLoop c target n dst) := by
  have hret : ∀ v, ¬ (Pc.ret v).Holds := fun _ h => h
  have hrel : ∀ pc : Pc, ¬ pc.Holds → LockOk Pc.Holds none (Function.update s.pc c pc) :=
    fun _ hpc => hinv.lock_ok.release hc hpc
  have hkeep := hinv.buf.sublist
  unfold Sys.consolereadLoop
  split
  · split
    · -- no committed input: return, or sleep
      split
      · exact ⟨hinv.buf, hrel _ (hret _)⟩
      · exact ⟨hinv.buf, hrel _ fun h => h⟩
    · rename_i hrw
      dsimp only
      split
      · split
        · -- the `^D` goes back: `r` is where it was
          refine ⟨?_, hrel _ (hret _)⟩
          show BufInv { s.cons with r := s.cons.r + 1 - 1 } s.committed s.taken s.delivered
          rw [UInt32.add_sub_cancel]
          exact hinv.buf
        · exact ⟨hinv.buf.take hrw (hkeep.trans (List.sublist_append_left _ _)), hrel _ (hret _)⟩
      · split
        · have hbuf := hinv.buf.take hrw (hkeep.append (List.Sublist.refl _))
          split
          · exact ⟨hbuf, hrel _ (hret _)⟩
          · exact ⟨hbuf, hinv.lock_ok.keep hc trivial⟩
        · -- `either_copyout` failed after `cons.r++`: the byte is taken, not delivered
          exact ⟨hinv.buf.take hrw (hkeep.trans (List.sublist_append_left _ _)), hrel _ (hret _)⟩
  · exact ⟨hinv.buf, hrel _ (hret _)⟩

theorem Inv.run (hinv : Inv s) {c : ι} (h : s.run c = some s') : Inv s' := by
  unfold Sys.run at h
  split at h
  · split at h
    · rename_i hlock
      cases h
      have hfree : LockOk Pc.Holds none s.pc := hlock ▸ hinv.lock_ok
      exact ⟨hinv.buf, hfree.acquire trivial⟩
    · cases h
  · rename_i target n dst hpc
    cases h
    exact hinv.consolereadLoop ((hinv.lock_ok c).mpr (by rw [hpc]; trivial)) target n dst
  · cases h
  · cases h

theorem Pc.holds_of_outside {pc : Pc} (h : pc.Outside) : ¬ pc.Holds := by
  cases pc <;> simp_all [Pc.Outside, Pc.Holds]

/-- Every step keeps the invariant. -/
theorem Inv.step (hinv : Inv s) {c : ι} {a : Act} (h : step s c a = some s') : Inv s' := by
  cases a with
  | consoleintr ch =>
    simp only [Xv6.Console.step] at h
    split at h
    · cases h
      exact ⟨hinv.buf.consoleintr ch, hinv.lock_ok⟩
    · cases h
  | consoleread n dst =>
    simp only [Xv6.Console.step] at h
    split at h
    · rename_i hout
      cases h
      exact ⟨hinv.buf, hinv.lock_ok.outside (Pc.holds_of_outside hout) fun h => h⟩
    · cases h
  | run => exact hinv.run h
  | kill =>
    cases h
    exact ⟨hinv.buf, hinv.lock_ok⟩

theorem inv_of_reachable (h : Reachable s) : Inv s := by
  induction h with
  | init killed => exact inv_init killed
  | step c a _ hs ih => exact ih.step hs

/-- The indices stay in order, and the committed bytes not yet taken are those from `r` to
`w`. -/
theorem console_indices_ok (h : Reachable s) :
    (s.cons.w - s.cons.r).toNat ≤ (s.cons.e - s.cons.r).toNat ∧
      (s.cons.e - s.cons.r).toNat ≤ INPUT_BUF_SIZE ∧
      s.taken ++ s.cons.window = s.committed ∧ List.Sublist s.delivered s.taken := by
  have hinv := inv_of_reachable h
  exact ⟨hinv.buf.ok.w_le_e, hinv.buf.ok.e_le, hinv.buf.history, hinv.buf.sublist⟩

/-! ## A lost byte -/

theorem reachable_runSteps (h : Reachable s) (as : List (ι × Act)) :
    Reachable (runSteps (fun s x => step s x.1 x.2) s as) :=
  runSteps_induction (fun _ x _ hs hx => .step x.1 x.2 hs hx) as h

/-- `a` and return are typed. Reader 0 reads into a buffer `either_copyout` cannot write;
reader 1 then reads into one it can. -/
def consLost : Sys (Fin 2) :=
  runSteps (fun s x => step s x.1 x.2) (Sys.init fun _ => false)
    [(0, .consoleintr 97), (0, .consoleintr 13),
      (0, .consoleread 10 fun _ => false), (0, .run), (0, .run),
      (1, .consoleread 10 fun _ => true), (1, .run), (1, .run)]

/-- Reader 0's read returns 0 and reader 1's returns the newline alone: the committed `a` was
never delivered, although no `^D` was typed and nothing is left to read. -/
theorem consoleread_loses_byte :
    Reachable consLost ∧ consLost.pc 0 = .ret 0 ∧ consLost.pc 1 = .ret 1 ∧
      consLost.committed = [97, 10] ∧ consLost.delivered = [10] ∧ consLost.cons.window = [] ∧
      consLost.delivered ++ consLost.cons.window ≠ consLost.committed :=
  ⟨reachable_runSteps (.init _) _, rfl, rfl, by decide, by decide, by decide, by decide⟩

end Xv6.Console
