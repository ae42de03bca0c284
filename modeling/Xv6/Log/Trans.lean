import Xv6.Log.Op
import Xv6.Lib.Tally
import Xv6.Lib.Run

/-!
# Xv6.Log.Trans — what `begin_op`'s reservation guarantees, and where it falls short

Every state reached from boot satisfies `Inv`:
- the log holds at most `LOGBLOCKS` blocks, all distinct;
- each buffer's `refcnt` is the references the file-system code holds plus one pin for each
  time its block is in the log, so a logged buffer stays referenced until `install_trans`
  unpins it;
- `outstanding` counts the open operations, and `committing` is set exactly while one process
  is about to commit, with no operation open;
- the reservation: `lh.n` plus what every open operation may still add is at most `LOGBLOCKS`.

The reservation makes room for every new block an operation adds, but `log_write` tests
`lh.n >= LOGBLOCKS` before looking the block up: once three operations have filled the log with
ten blocks each, an operation that writes one of its own blocks again panics although the write
would be absorbed (the run `logFull`). That is the only panic
(`logWrite_panic_absorbed`).
-/

namespace Xv6.Log

open Xv6.Lib

/-! ## The log header -/

/-- The blocks in the log: the first `n` entries of `block`. -/
def Header.logged (lh : Header) : List Nat :=
  (List.range lh.n).map lh.block

@[simp] theorem Header.logged_length (lh : Header) : lh.logged.length = lh.n := by
  simp [Header.logged]

theorem Header.mem_logged {lh : Header} {b : Nat} : b ∈ lh.logged ↔ ∃ t < lh.n, lh.block t = b := by
  simp [Header.logged]

/-- Entry `n` takes `b` and `n` counts it: `log_write` of a new block. -/
def Header.push (lh : Header) (b : Nat) : Header :=
  ⟨lh.n + 1, Function.update lh.block lh.n b⟩

@[simp] theorem Header.push_n (lh : Header) (b : Nat) : (lh.push b).n = lh.n + 1 := rfl

theorem Header.logged_push (lh : Header) (b : Nat) : (lh.push b).logged = lh.logged ++ [b] := by
  simp only [Header.logged, Header.push, List.range_succ, List.map_append, List.map_cons,
    List.map_nil, Function.update_self]
  congr 1
  apply List.map_congr_left
  intro t ht
  rw [List.mem_range] at ht
  exact Function.update_of_ne (Nat.ne_of_lt ht) _ _

/-- `log_write`'s loop stops at the entry holding `b`, or at `n` when there is none. -/
theorem absorbIndex_spec (lh : Header) (b : Nat) :
    (absorbIndex lh b < lh.n ∧ lh.block (absorbIndex lh b) = b) ∨
      (absorbIndex lh b = lh.n ∧ b ∉ lh.logged) := by
  unfold absorbIndex
  cases hfind : (List.range lh.n).find? (fun i => lh.block i == b) with
  | some i =>
    left
    have hmem := List.mem_of_find?_eq_some hfind
    have hb := List.find?_some hfind
    rw [List.mem_range] at hmem
    exact ⟨hmem, beq_iff_eq.mp hb⟩
  | none =>
    right
    refine ⟨rfl, fun hmem => ?_⟩
    obtain ⟨t, ht, hbt⟩ := Header.mem_logged.mp hmem
    have hno := List.find?_eq_none.mp hfind t (List.mem_range.mpr ht)
    exact hno (beq_iff_eq.mpr hbt)

/-- An absorbed write rewrites an entry with the value it holds. -/
theorem absorb_update {lh : Header} {b : Nat} (h : lh.block (absorbIndex lh b) = b) :
    Function.update lh.block (absorbIndex lh b) b = lh.block := by
  exact Function.update_eq_self_iff.mpr h.symm

/-- Decrementing once per element of `l`, in `Nat`, takes away its count. -/
theorem foldl_dec_apply (l : List Nat) (r : Nat → Nat) (b : Nat) :
    l.foldl (fun r x => Function.update r x (r x - 1)) r b = r b - l.count b := by
  induction l generalizing r with
  | nil => rfl
  | cons x l ih =>
    rw [List.foldl_cons, ih, List.count_cons]
    by_cases hx : x = b
    · subst hx
      simp only [Function.update_self, beq_self_eq_true, if_true]
      omega
    · rw [Function.update_of_ne (Ne.symm hx)]
      simp [hx]

/-- `install_trans(0)` takes one pin off each buffer per time its block is in the log. -/
theorem unpinAll_apply (lh : Header) (r : Nat → Nat) (b : Nat) :
    unpinAll lh r b = r b - lh.logged.count b := by
  rw [unpinAll, ← foldl_dec_apply]
  rw [Header.logged, List.foldl_map]

/-- One more reference to block `b`, counted in `l`. -/
theorem update_succ_count {r f : Nat → Nat} (h : ∀ x, r x = f x) (b x : Nat) :
    Function.update r b (r b + 1) x = f x + [b].count x := by
  rw [List.count_singleton]
  by_cases hx : x = b
  · subst hx
    rw [Function.update_self, h]
    simp
  · rw [Function.update_of_ne hx, h]
    simp [Ne.symm hx]

/-! ## `log_write` -/

section LogWrite

variable {ι : Type*} {s : Sys ι} {b : Nat}

theorem Sys.logWrite_full (h : LOGBLOCKS ≤ s.log.lh.n) :
    s.logWrite b = s.panic "too big a transaction" :=
  if_pos h

/-- Log absorption: a block already in the log leaves the state as it is. -/
theorem Sys.logWrite_absorb (hn : s.log.lh.n < LOGBLOCKS) (ho : 1 ≤ s.log.outstanding)
    (hi : absorbIndex s.log.lh b < s.log.lh.n) (hb : s.log.lh.block (absorbIndex s.log.lh b) = b) :
    s.logWrite b = s := by
  unfold Sys.logWrite
  rw [if_neg (Nat.not_le.mpr hn), if_neg (Nat.not_lt.mpr ho)]
  dsimp only
  rw [if_neg (Nat.ne_of_lt hi), absorb_update hb]

/-- A new block is appended to the log and pinned. -/
theorem Sys.logWrite_append (hn : s.log.lh.n < LOGBLOCKS) (ho : 1 ≤ s.log.outstanding)
    (hi : absorbIndex s.log.lh b = s.log.lh.n) :
    s.logWrite b = { s with log := { s.log with lh := s.log.lh.push b },
                            refcnt := Function.update s.refcnt b (s.refcnt b + 1) } := by
  unfold Sys.logWrite
  rw [if_neg (Nat.not_le.mpr hn), if_neg (Nat.not_lt.mpr ho)]
  dsimp only
  rw [if_pos hi, hi]
  rfl

end LogWrite

/-! ## `end_op` and `commit` -/

section EndOp

variable {ι : Type*} [DecidableEq ι] {s : Sys ι} {c : ι}

/-- The last operation out sets `committing` and goes on to commit. -/
theorem Sys.endOp_last (hcm : s.log.committing = false) (h0 : s.log.outstanding - 1 = 0) :
    s.endOp c = { s with
      log := { s.log with outstanding := s.log.outstanding - 1, committing := true }
      pc := Function.update s.pc c .commit } := by
  unfold Sys.endOp
  dsimp only
  rw [hcm, if_neg Bool.false_ne_true, if_pos h0]
  rfl

/-- Another operation is still open: `wakeup(&log)` and leave. -/
theorem Sys.endOp_wake (hcm : s.log.committing = false) (h0 : s.log.outstanding - 1 ≠ 0) :
    s.endOp c = { s with
      log := { s.log with outstanding := s.log.outstanding - 1 }
      pc := Function.update s.pc c .idle } := by
  unfold Sys.endOp
  dsimp only
  rw [hcm, if_neg Bool.false_ne_true, if_neg h0]
  rfl

/-- `commit` unpins the logged buffers and empties the log; with `n = 0` both do nothing. -/
theorem Sys.commit_eq : s.commit c =
    { s with
      refcnt := unpinAll s.log.lh s.refcnt
      log := { s.log with lh := { s.log.lh with n := 0 }, committing := false }
      pc := Function.update s.pc c .idle } := by
  unfold Sys.commit
  split
  · rfl
  · rename_i hn
    obtain ⟨⟨o, cm, ⟨n, blk⟩⟩, r, h, pc, w, pn⟩ := s
    obtain rfl : n = 0 := Nat.eq_zero_of_not_pos hn
    rfl

end EndOp

/-! ## Reservations -/

/-- What an open operation may still add to the log. -/
def slack (pc : Pc) (written : List Nat) : Nat :=
  if pc = .op then MAXOPBLOCKS - written.length else 0

/-- One for an open operation. -/
def opens (pc : Pc) : Nat :=
  if pc = .op then 1 else 0

theorem slack_le (pc : Pc) (written : List Nat) : slack pc written ≤ MAXOPBLOCKS * opens pc := by
  unfold slack opens
  split <;> omega

theorem opens_eq_zero {p : Pc} (h : p ≠ .op) : opens p = 0 := if_neg h

theorem opens_op : opens .op = 1 := if_pos rfl

theorem slack_eq_zero {p : Pc} (h : p ≠ .op) (written : List Nat) : slack p written = 0 :=
  if_neg h

theorem slack_op (written : List Nat) : slack .op written = MAXOPBLOCKS - written.length :=
  if_pos rfl

/-! ## One process moves -/

section Moves

variable {ι : Type*}

/-- `committing` is set exactly while one process is about to commit. -/
structure CommitOk (committing : Bool) (pc : ι → Pc) : Prop where
  iff : committing = true ↔ ∃ c, pc c = .commit
  unique : ∀ c c', pc c = .commit → pc c' = .commit → c = c'

/-- What each process has passed to `log_write` in its open operation: distinct blocks, at
most `MAXOPBLOCKS`, all in the log, and nothing outside an operation. -/
structure WrittenOk (pc : ι → Pc) (written : ι → List Nat) (logged : List Nat) : Prop where
  logged : ∀ c, pc c = .op → ∀ b ∈ written c, b ∈ logged
  nodup : ∀ c, (written c).Nodup
  le : ∀ c, (written c).length ≤ MAXOPBLOCKS
  idle : ∀ c, pc c ≠ .op → written c = []

/-- The log only grew. -/
theorem WrittenOk.mono {pc : ι → Pc} {written : ι → List Nat} {logged logged' : List Nat}
    (h : WrittenOk pc written logged) (hsub : ∀ b ∈ logged, b ∈ logged') :
    WrittenOk pc written logged' :=
  ⟨fun c hc b hb => hsub b (h.logged c hc b hb), h.nodup, h.le, h.idle⟩

/-- With no operation open, nothing written needs to be in the log. -/
theorem WrittenOk.clear {pc : ι → Pc} {written : ι → List Nat} {logged : List Nat}
    (h : WrittenOk pc written logged) (hnone : ∀ c, pc c ≠ .op) : WrittenOk pc written [] :=
  ⟨fun c hc => absurd hc (hnone c), h.nodup, h.le, h.idle⟩

variable [DecidableEq ι]

theorem CommitOk.move {b : Bool} {pc : ι → Pc} (h : CommitOk b pc) {c : ι} {p : Pc}
    (hc : pc c ≠ .commit) (hp : p ≠ .commit) : CommitOk b (Function.update pc c p) := by
  constructor
  · rw [h.iff]
    constructor
    · rintro ⟨x, hx⟩
      have hxc : x ≠ c := fun hxc => hc (hxc ▸ hx)
      exact ⟨x, by rw [Function.update_of_ne hxc]; exact hx⟩
    · rintro ⟨x, hx⟩
      by_cases hxc : x = c
      · subst hxc
        rw [Function.update_self] at hx
        exact absurd hx hp
      · rw [Function.update_of_ne hxc] at hx
        exact ⟨x, hx⟩
  · intro x x' hx hx'
    have hxc : x ≠ c := fun hxc => by subst hxc; rw [Function.update_self] at hx; exact hp hx
    have hx'c : x' ≠ c := fun hxc => by subst hxc; rw [Function.update_self] at hx'; exact hp hx'
    rw [Function.update_of_ne hxc] at hx
    rw [Function.update_of_ne hx'c] at hx'
    exact h.unique x x' hx hx'

/-- The last operation out sets `committing` and goes on to commit. -/
theorem CommitOk.start {pc : ι → Pc} (h : CommitOk false pc) (c : ι) :
    CommitOk true (Function.update pc c .commit) := by
  have hnone : ∀ x, pc x ≠ .commit := fun x hx => by
    have := h.iff.mpr ⟨x, hx⟩
    cases this
  refine ⟨iff_of_true rfl ⟨c, Function.update_self _ _ _⟩, fun x x' hx hx' => ?_⟩
  by_cases hxc : x = c
  · by_cases hx'c : x' = c
    · rw [hxc, hx'c]
    · rw [Function.update_of_ne hx'c] at hx'
      exact absurd hx' (hnone x')
  · rw [Function.update_of_ne hxc] at hx
    exact absurd hx (hnone x)

/-- The committing process clears `committing` and leaves. -/
theorem CommitOk.finish {pc : ι → Pc} (h : CommitOk true pc) {c : ι} (hc : pc c = .commit)
    {p : Pc} (hp : p ≠ .commit) : CommitOk false (Function.update pc c p) := by
  refine ⟨iff_of_false (by simp) ?_, fun x x' hx hx' => ?_⟩
  · rintro ⟨x, hx⟩
    by_cases hxc : x = c
    · subst hxc
      rw [Function.update_self] at hx
      exact hp hx
    · rw [Function.update_of_ne hxc] at hx
      exact hxc (h.unique x c hx hc)
  · have hxc : x ≠ c := fun hxc => by subst hxc; rw [Function.update_self] at hx; exact hp hx
    rw [Function.update_of_ne hxc] at hx
    exact absurd (h.unique x c hx hc) hxc

/-- Process `c` moves to `p` with `w` written. -/
theorem WrittenOk.update {pc : ι → Pc} {written : ι → List Nat} {logged : List Nat}
    (h : WrittenOk pc written logged) (c : ι) {p : Pc} {w : List Nat}
    (hlog : p = .op → ∀ b ∈ w, b ∈ logged) (hnodup : w.Nodup) (hle : w.length ≤ MAXOPBLOCKS)
    (hidle : p ≠ .op → w = []) :
    WrittenOk (Function.update pc c p) (Function.update written c w) logged := by
  refine ⟨fun x hx => ?_, fun x => ?_, fun x => ?_, fun x hx => ?_⟩ <;> by_cases hxc : x = c
  · subst hxc
    rw [Function.update_self] at hx ⊢
    exact hlog hx
  · rw [Function.update_of_ne hxc] at hx ⊢
    exact h.logged x hx
  · rw [hxc, Function.update_self]
    exact hnodup
  · rw [Function.update_of_ne hxc]
    exact h.nodup x
  · rw [hxc, Function.update_self]
    exact hle
  · rw [Function.update_of_ne hxc]
    exact h.le x
  · subst hxc
    rw [Function.update_self] at hx ⊢
    exact hidle hx
  · rw [Function.update_of_ne hxc] at hx ⊢
    exact h.idle x hx

/-- Open operation `c` passes `b`, a block in the log, to `log_write`. -/
theorem WrittenOk.add {pc : ι → Pc} {written : ι → List Nat} {logged : List Nat}
    (h : WrittenOk pc written logged) {c : ι} (hc : pc c = .op) {b : Nat} (hb : b ∈ logged)
    (hroom : b ∈ written c ∨ (written c).length < MAXOPBLOCKS) :
    WrittenOk pc
      (Function.update written c (if b ∈ written c then written c else written c ++ [b]))
      logged := by
  split
  · rw [Function.update_eq_self]
    exact h
  · rename_i hnot
    have hlt := hroom.resolve_left hnot
    have hlog : pc c = .op → ∀ x ∈ written c ++ [b], x ∈ logged := by
      intro _ x hx
      rcases List.mem_append.mp hx with hx | hx
      · exact h.logged c hc x hx
      · rw [List.mem_singleton.mp hx]
        exact hb
    have hnodup : (written c ++ [b]).Nodup :=
      List.nodup_append.mpr ⟨h.nodup c, List.nodup_singleton b,
        fun x hx y hy hxy => hnot (by rw [List.mem_singleton.mp hy] at hxy; rw [← hxy]; exact hx)⟩
    have hle : (written c ++ [b]).length ≤ MAXOPBLOCKS := by
      rw [List.length_append, List.length_singleton]
      omega
    have := h.update c hlog hnodup hle fun hne => absurd hc hne
    rwa [Function.update_eq_self] at this

/-- Process `c` moves to `p` keeping what it has written. -/
theorem WrittenOk.setPc {pc : ι → Pc} {written : ι → List Nat} {logged : List Nat}
    (h : WrittenOk pc written logged) (c : ι) {p : Pc}
    (hlog : p = .op → ∀ b ∈ written c, b ∈ logged) (hidle : p ≠ .op → written c = []) :
    WrittenOk (Function.update pc c p) written logged := by
  have := h.update c hlog (h.nodup c) (h.le c) hidle
  rwa [Function.update_eq_self] at this

end Moves

/-! ## The invariant -/

variable {ι : Type*} [Fintype ι] {s s' : Sys ι}

/-- What every state reached from boot satisfies. -/
structure Inv (s : Sys ι) : Prop where
  n_le : s.log.lh.n ≤ LOGBLOCKS
  nodup : s.log.lh.logged.Nodup
  refcnt_eq : ∀ b, s.refcnt b = s.holds.count b + s.log.lh.logged.count b
  outstanding_eq : s.log.outstanding = ∑ c, opens (s.pc c)
  commit_ok : CommitOk s.log.committing s.pc
  committing_ops : s.log.committing = true → s.log.outstanding = 0
  reserve : s.log.lh.n + ∑ c, slack (s.pc c) (s.written c) ≤ LOGBLOCKS
  written_ok : WrittenOk s.pc s.written s.log.lh.logged

theorem inv_init : Inv (Sys.init : Sys ι) where
  n_le := Nat.zero_le _
  nodup := List.nodup_nil
  refcnt_eq _ := rfl
  outstanding_eq := by simp [Sys.init, opens]
  commit_ok := ⟨by simp [Sys.init], fun c _ h => by simp [Sys.init] at h⟩
  committing_ops h := by simp [Sys.init] at h
  reserve := by simp [Sys.init, slack, Header.zero, LOGBLOCKS]
  written_ok := ⟨fun c h => by simp [Sys.init] at h, fun _ => List.nodup_nil,
    fun _ => Nat.zero_le _, fun _ _ => rfl⟩

/-- An open operation is counted in `outstanding`. -/
theorem Inv.outstanding_pos (hinv : Inv s) {c : ι} (hc : s.pc c = .op) :
    1 ≤ s.log.outstanding := by
  have hle := Finset.single_le_sum (fun x _ => Nat.zero_le (opens (s.pc x))) (Finset.mem_univ c)
  rw [hinv.outstanding_eq]
  simpa [opens, hc] using hle

/-- While a commit is pending no operation is open. -/
theorem Inv.not_op_of_committing (hinv : Inv s) (hcm : s.log.committing = true) (c : ι) :
    s.pc c ≠ .op := fun hc => by
  have := hinv.outstanding_pos hc
  rw [hinv.committing_ops hcm] at this
  exact Nat.not_succ_le_zero 0 this

/-- An operation that may still add a block finds room in the log. -/
theorem Inv.n_lt (hinv : Inv s) {c : ι} (hc : s.pc c = .op)
    (hw : (s.written c).length < MAXOPBLOCKS) : s.log.lh.n < LOGBLOCKS := by
  have hle := Finset.single_le_sum (fun x _ => Nat.zero_le (slack (s.pc x) (s.written x)))
    (Finset.mem_univ c)
  have hpos : 0 < slack (s.pc c) (s.written c) := by
    simp only [slack, hc, if_true]
    omega
  have := hinv.reserve
  omega

/-- With the log full, a block an open operation may still pass to `log_write` is one it has
already written. -/
theorem Inv.mem_written_of_full (hinv : Inv s) {c : ι} (hc : s.pc c = .op) {b : Nat}
    (hroom : b ∈ s.written c ∨ (s.written c).length < MAXOPBLOCKS)
    (hfull : LOGBLOCKS ≤ s.log.lh.n) : b ∈ s.written c :=
  hroom.resolve_right fun hlt => absurd (hinv.n_lt hc hlt) (Nat.not_lt.mpr hfull)

/-- Below `LOGBLOCKS`, `log_write` by an open operation does not panic. -/
theorem Inv.logWrite_panicked (hinv : Inv s) {c : ι} (hc : s.pc c = .op) (b : Nat)
    (hn : s.log.lh.n < LOGBLOCKS) : (s.logWrite b).panicked = s.panicked := by
  have hpos := hinv.outstanding_pos hc
  rcases absorbIndex_spec s.log.lh b with ⟨hi, hbi⟩ | ⟨hi, _⟩
  · rw [Sys.logWrite_absorb hn hpos hi hbi]
  · rw [Sys.logWrite_append hn hpos hi]

/-! ## Every step -/

variable [DecidableEq ι]

/-- A sum over the processes, when process `c` moves to `p` with `w` written. -/
theorem sum_update (f : Pc → List Nat → Nat) (pc : ι → Pc) (written : ι → List Nat) (c : ι)
    (p : Pc) (w : List Nat) :
    ∑ x, f (Function.update pc c p x) (Function.update written c w x) + f (pc c) (written c) =
      ∑ x, f (pc x) (written x) + f p w := by
  have h := sum_add_eq_of_agree (f := fun x => f (pc x) (written x))
    (g := fun x => f (Function.update pc c p x) (Function.update written c w x)) c
    fun x hx => by rw [Function.update_of_ne hx, Function.update_of_ne hx]
  simpa only [Function.update_self] using h

/-- The same sum when only process `c`'s point changes. -/
theorem sum_update_pc (f : Pc → List Nat → Nat) (pc : ι → Pc) (written : ι → List Nat) (c : ι)
    (p : Pc) :
    ∑ x, f (Function.update pc c p x) (written x) + f (pc c) (written c) =
      ∑ x, f (pc x) (written x) + f p (written c) := by
  simpa only [Function.update_eq_self] using sum_update f pc written c p (written c)

/-- Process `c` calls `begin_op`. -/
theorem Inv.beginOp (hinv : Inv s) {c : ι} (hc : s.pc c = .idle) :
    Inv (s.setPc c .beginOp) := by
  have hopens := sum_update_pc (fun p _ => opens p) s.pc s.written c .beginOp
  have hslack := sum_update_pc slack s.pc s.written c .beginOp
  -- neither `idle` nor `beginOp` counts
  rw [hc, opens_eq_zero (by decide), opens_eq_zero (by decide)] at hopens
  rw [hc, slack_eq_zero (by decide), slack_eq_zero (by decide)] at hslack
  refine ⟨hinv.n_le, hinv.nodup, hinv.refcnt_eq, ?_,
    hinv.commit_ok.move (by rw [hc]; decide) (by decide), hinv.committing_ops, ?_,
    hinv.written_ok.setPc c (fun h => by cases h)
      (fun _ => hinv.written_ok.idle c (by rw [hc]; decide))⟩
  · show s.log.outstanding = ∑ x, opens (Function.update s.pc c .beginOp x)
    rw [hinv.outstanding_eq]
    omega
  · show s.log.lh.n + ∑ x, slack (Function.update s.pc c .beginOp x) (s.written x) ≤ LOGBLOCKS
    have := hinv.reserve
    omega

/-- `begin_op` counts the operation in when no commit runs and the log has room for
`MAXOPBLOCKS` more blocks per open operation. -/
theorem Inv.beginOpTest (hinv : Inv s) {c : ι} (hc : s.pc c = .beginOp)
    (h : s.beginOpTest c = some s') : Inv s' := by
  unfold Sys.beginOpTest at h
  split at h
  · cases h
  · rename_i hcm
    split at h
    · cases h
    · rename_i hroom
      cases h
      have hw : s.written c = [] := hinv.written_ok.idle c (by rw [hc]; decide)
      have hopens := sum_update_pc (fun p _ => opens p) s.pc s.written c .op
      have hslack := sum_update_pc slack s.pc s.written c .op
      rw [hc, opens_eq_zero (by decide), opens_op] at hopens
      rw [hc, slack_eq_zero (by decide), slack_op, hw] at hslack
      -- every open operation reserves at most `MAXOPBLOCKS`
      have hres : ∑ x, slack (s.pc x) (s.written x) ≤ MAXOPBLOCKS * s.log.outstanding := by
        rw [hinv.outstanding_eq, Finset.mul_sum]
        exact Finset.sum_le_sum fun x _ => slack_le (s.pc x) (s.written x)
      refine ⟨hinv.n_le, hinv.nodup, hinv.refcnt_eq, ?_,
        hinv.commit_ok.move (by rw [hc]; decide) (by decide), fun h => absurd h hcm, ?_,
        hinv.written_ok.setPc c (fun _ b hb => by rw [hw] at hb; cases hb) fun h => absurd rfl h⟩
      · show s.log.outstanding + 1 = ∑ x, opens (Function.update s.pc c .op x)
        rw [hinv.outstanding_eq]
        omega
      · show s.log.lh.n + ∑ x, slack (Function.update s.pc c .op x) (s.written x) ≤ LOGBLOCKS
        have : s.log.lh.n + (s.log.outstanding + 1) * MAXOPBLOCKS ≤ LOGBLOCKS := by omega
        simp only [List.length_nil, Nat.sub_zero] at hslack
        rw [Nat.add_mul, Nat.one_mul, Nat.mul_comm] at this
        omega

omit [DecidableEq ι] in
/-- `bread`: one more reference, held. -/
theorem Inv.bread (hinv : Inv s) (b : Nat) :
    Inv { s with refcnt := Function.update s.refcnt b (s.refcnt b + 1), holds := s.holds ++ [b] } := by
  refine ⟨hinv.n_le, hinv.nodup, fun b' => ?_, hinv.outstanding_eq, hinv.commit_ok,
    hinv.committing_ops, hinv.reserve, hinv.written_ok⟩
  show Function.update s.refcnt b (s.refcnt b + 1) b' =
    (s.holds ++ [b]).count b' + s.log.lh.logged.count b'
  rw [update_succ_count hinv.refcnt_eq, List.count_append]
  omega

omit [DecidableEq ι] in
/-- `brelse` of a held buffer: one reference fewer. -/
theorem Inv.brelse (hinv : Inv s) {b : Nat} (hb : b ∈ s.holds) :
    Inv { s with refcnt := Function.update s.refcnt b (s.refcnt b - 1),
                 holds := s.holds.erase b } := by
  refine ⟨hinv.n_le, hinv.nodup, fun b' => ?_, hinv.outstanding_eq, hinv.commit_ok,
    hinv.committing_ops, hinv.reserve, hinv.written_ok⟩
  show Function.update s.refcnt b (s.refcnt b - 1) b' =
    (s.holds.erase b).count b' + s.log.lh.logged.count b'
  by_cases hbb : b' = b
  · subst hbb
    have hpos := List.count_pos_iff.mpr hb
    rw [Function.update_self, hinv.refcnt_eq, List.count_erase_self]
    omega
  · rw [Function.update_of_ne hbb, hinv.refcnt_eq, List.count_erase_of_ne hbb]

/-- What `log_write` adds to what operation `c` has written leaves its reservation no larger,
and smaller by one when `b` is new to it. -/
theorem slack_add (w : List Nat) (b : Nat) (hroom : b ∈ w ∨ w.length < MAXOPBLOCKS) :
    slack .op (if b ∈ w then w else w ++ [b]) + (if b ∈ w then 0 else 1) = slack .op w := by
  rw [slack_op, slack_op]
  split
  · rfl
  · rename_i hnot
    have hlt := hroom.resolve_left hnot
    rw [List.length_append, List.length_singleton]
    omega

/-- `log_write` by an open operation, within its `MAXOPBLOCKS`: a panic when the log is full,
otherwise the block is absorbed or appended and pinned. -/
theorem Inv.logWrite (hinv : Inv s) {c : ι} (hc : s.pc c = .op) {b : Nat}
    (hroom : b ∈ s.written c ∨ (s.written c).length < MAXOPBLOCKS) :
    Inv { s.logWrite b with
      written := Function.update s.written c
        (if b ∈ s.written c then s.written c else s.written c ++ [b]) } := by
  have hsum := sum_update slack s.pc s.written c (s.pc c)
    (if b ∈ s.written c then s.written c else s.written c ++ [b])
  have hadd := slack_add (s.written c) b hroom
  rw [Function.update_eq_self, hc] at hsum
  have hres := hinv.reserve
  by_cases hfull : LOGBLOCKS ≤ s.log.lh.n
  · -- a full log leaves operation `c` no room, so `b` is one of its blocks: `panic`
    rw [if_pos (hinv.mem_written_of_full hc hroom hfull), Function.update_eq_self, Sys.logWrite_full hfull]
    exact ⟨hinv.n_le, hinv.nodup, hinv.refcnt_eq, hinv.outstanding_eq, hinv.commit_ok,
      hinv.committing_ops, hinv.reserve, hinv.written_ok⟩
  have hn := Nat.not_le.mp hfull
  have hpos := hinv.outstanding_pos hc
  rcases absorbIndex_spec s.log.lh b with ⟨hi, hbi⟩ | ⟨hi, hnot⟩
  · -- log absorption: only what `c` has written changes
    rw [Sys.logWrite_absorb hn hpos hi hbi]
    have hlogged : b ∈ s.log.lh.logged := Header.mem_logged.mpr ⟨_, hi, hbi⟩
    refine ⟨hinv.n_le, hinv.nodup, hinv.refcnt_eq, hinv.outstanding_eq, hinv.commit_ok,
      hinv.committing_ops, ?_, hinv.written_ok.add hc hlogged hroom⟩
    show s.log.lh.n + ∑ x, slack (s.pc x) (Function.update s.written c _ x) ≤ LOGBLOCKS
    omega
  · -- a new block: appended, pinned, and one of `c`'s `MAXOPBLOCKS`
    rw [Sys.logWrite_append hn hpos hi]
    have hnew : b ∉ s.written c := fun hw => hnot (hinv.written_ok.logged c hc b hw)
    have hone : (if b ∈ s.written c then 0 else 1) = 1 := if_neg hnew
    refine ⟨?_, ?_, fun x => ?_, hinv.outstanding_eq, hinv.commit_ok, hinv.committing_ops, ?_,
      ?_⟩
    · show s.log.lh.n + 1 ≤ LOGBLOCKS
      omega
    · show (s.log.lh.push b).logged.Nodup
      rw [Header.logged_push]
      exact List.nodup_append.mpr ⟨hinv.nodup, List.nodup_singleton b,
        fun x hx y hy hxy => hnot (by rw [List.mem_singleton.mp hy] at hxy; rw [← hxy]; exact hx)⟩
    · show Function.update s.refcnt b (s.refcnt b + 1) x =
        s.holds.count x + (s.log.lh.push b).logged.count x
      rw [update_succ_count hinv.refcnt_eq, Header.logged_push, List.count_append]
      omega
    · show s.log.lh.n + 1 + ∑ x, slack (s.pc x) (Function.update s.written c _ x) ≤ LOGBLOCKS
      omega
    · show WrittenOk s.pc _ (s.log.lh.push b).logged
      rw [Header.logged_push]
      exact (hinv.written_ok.mono fun x hx => List.mem_append_left _ hx).add hc
        (List.mem_append_right _ (List.mem_singleton_self b)) hroom

/-- An operation leaves the log: `outstanding` drops by one and the process moves on to `p`,
with `committing` as `end_op` sets it. -/
theorem Inv.close (hinv : Inv s) {c : ι} (hc : s.pc c = .op) {p : Pc} (hp : p ≠ .op)
    {log : LogMem} (hlh : log.lh = s.log.lh) (ho : log.outstanding = s.log.outstanding - 1)
    (hcommit : CommitOk log.committing (Function.update s.pc c p))
    (hops : log.committing = true → log.outstanding = 0) :
    Inv { s with log := log, pc := Function.update s.pc c p,
                 written := Function.update s.written c [] } := by
  have hopens := sum_update (fun p _ => opens p) s.pc s.written c p []
  have hslack := sum_update slack s.pc s.written c p []
  rw [hc, opens_op, opens_eq_zero hp] at hopens
  rw [slack_eq_zero hp] at hslack
  refine ⟨hlh ▸ hinv.n_le, hlh ▸ hinv.nodup, hlh ▸ hinv.refcnt_eq, ?_, hcommit, hops, ?_,
    hlh ▸ hinv.written_ok.update c (fun h => absurd h hp) List.nodup_nil (Nat.zero_le _)
      fun _ => rfl⟩
  · show log.outstanding = ∑ x, opens (Function.update s.pc c p x)
    rw [ho, hinv.outstanding_eq]
    omega
  · show log.lh.n + ∑ x, slack (Function.update s.pc c p x) (Function.update s.written c [] x) ≤
      LOGBLOCKS
    have := hinv.reserve
    rw [hlh]
    omega

/-- `end_op`: the operation is counted out; the last one out starts the commit. -/
theorem Inv.endOp (hinv : Inv s) {c : ι} (hc : s.pc c = .op) :
    Inv { s.endOp c with written := Function.update s.written c [] } := by
  have hcm : s.log.committing = false :=
    Bool.eq_false_iff.mpr fun h => hinv.not_op_of_committing h c hc
  have hcommit := hinv.commit_ok
  rw [hcm] at hcommit
  by_cases h0 : s.log.outstanding - 1 = 0
  · rw [Sys.endOp_last hcm h0]
    exact hinv.close hc (by decide) rfl rfl (hcommit.start c) fun _ => h0
  · rw [Sys.endOp_wake hcm h0]
    exact hinv.close hc (by decide) rfl rfl
      (hinv.commit_ok.move (show s.pc c ≠ .commit by rw [hc]; decide)
        (show Pc.idle ≠ .commit by decide))
      fun h => absurd (hcm.symm.trans h) Bool.false_ne_true

/-- `commit` with no operation open: every pin the log held is released and the log is
empty. -/
theorem Inv.commit (hinv : Inv s) {c : ι} (hc : s.pc c = .commit) : Inv (s.commit c) := by
  have hcm : s.log.committing = true := hinv.commit_ok.iff.mpr ⟨c, hc⟩
  have hnone := hinv.not_op_of_committing hcm
  have hnone' : ∀ x, Function.update s.pc c .idle x ≠ .op := fun x => by
    by_cases hx : x = c
    · rw [hx, Function.update_self]
      decide
    · rw [Function.update_of_ne hx]
      exact hnone x
  have hempty : ({ s.log.lh with n := 0 } : Header).logged = [] := rfl
  have hcommit := hinv.commit_ok
  rw [hcm] at hcommit
  rw [Sys.commit_eq]
  refine ⟨Nat.zero_le _, hempty ▸ List.nodup_nil, fun b => ?_, ?_,
    hcommit.finish hc (by decide), fun h => absurd h Bool.false_ne_true, ?_, ?_⟩
  · show unpinAll s.log.lh s.refcnt b = s.holds.count b + ({ s.log.lh with n := 0 } : Header).logged.count b
    rw [unpinAll_apply, hinv.refcnt_eq, hempty, List.count_nil]
    omega
  · show s.log.outstanding = ∑ x, opens (Function.update s.pc c .idle x)
    rw [hinv.committing_ops hcm, Finset.sum_eq_zero fun x _ => opens_eq_zero (hnone' x)]
  · show 0 + ∑ x, slack (Function.update s.pc c .idle x) (s.written x) ≤ LOGBLOCKS
    rw [Finset.sum_eq_zero fun x _ => slack_eq_zero (hnone' x) _]
    exact Nat.zero_le _
  · show WrittenOk _ s.written ({ s.log.lh with n := 0 } : Header).logged
    rw [hempty]
    exact (hinv.written_ok.clear hnone).setPc c (fun h => by cases h)
      fun _ => hinv.written_ok.idle c (by rw [hc]; decide)

/-- Every step of every process keeps the invariant. -/
theorem Inv.step (hinv : Inv s) {c : ι} {a : Act} (h : Xv6.Log.step s c a = some s') :
    Inv s' := by
  by_cases hp : s.panicked.isSome
  · unfold Xv6.Log.step at h
    rw [if_pos hp] at h
    cases h
  unfold Xv6.Log.step at h
  rw [if_neg hp] at h
  cases a with
  | beginOp =>
    dsimp only at h
    split at h
    · rename_i hc
      cases h
      exact hinv.beginOp hc
    · cases h
  | run =>
    dsimp only at h
    split at h
    · rename_i hc
      exact hinv.beginOpTest hc h
    · rename_i hc
      cases h
      exact hinv.commit hc
    · cases h
  | bread b =>
    cases h
    exact hinv.bread b
  | brelse b =>
    dsimp only at h
    split at h
    · rename_i hb
      cases h
      exact hinv.brelse hb
    · cases h
  | logWrite b =>
    dsimp only at h
    split at h
    · rename_i hok
      cases h
      exact hinv.logWrite hok.1 hok.2.2
    · cases h
  | endOp =>
    dsimp only at h
    split at h
    · rename_i hc
      cases h
      exact hinv.endOp hc
    · cases h

/-- The invariant holds in every state reached from boot. -/
theorem inv_of_reachable (h : Reachable s) : Inv s := by
  induction h with
  | init => exact inv_init
  | step c a _ hstep ih => exact ih.step hstep

/-! ## What the reservation guarantees, and the panic it does not prevent -/

/-- In every reachable state the log fits in its region and holds each block once, every logged
buffer is pinned, and a commit runs only with no operation open. -/
theorem reachable_log_ok (hs : Reachable s) :
    s.log.lh.n ≤ LOGBLOCKS ∧ s.log.lh.logged.Nodup ∧ (∀ b ∈ s.log.lh.logged, 1 ≤ s.refcnt b) ∧
      (s.log.committing = true → s.log.outstanding = 0) ∧
      (∀ c, s.pc c = .commit → s.log.outstanding = 0) := by
  have hinv := inv_of_reachable hs
  refine ⟨hinv.n_le, hinv.nodup, fun b hb => ?_, hinv.committing_ops,
    fun c hc => hinv.committing_ops (hinv.commit_ok.iff.mpr ⟨c, hc⟩)⟩
  have hpin := List.count_pos_iff.mpr hb
  rw [hinv.refcnt_eq]
  omega

/-- `log_write` by an open operation within its `MAXOPBLOCKS` panics only with the log full and
on a block the operation has already written: a write that would be absorbed. -/
theorem logWrite_panic_absorbed (hs : Reachable s) {c : ι} (hc : s.pc c = .op) {b : Nat}
    (hroom : b ∈ s.written c ∨ (s.written c).length < MAXOPBLOCKS)
    (hpanic : (s.logWrite b).panicked ≠ s.panicked) :
    s.log.lh.n = LOGBLOCKS ∧ b ∈ s.written c := by
  have hinv := inv_of_reachable hs
  by_cases hfull : LOGBLOCKS ≤ s.log.lh.n
  · exact ⟨Nat.le_antisymm hinv.n_le hfull, hinv.mem_written_of_full hc hroom hfull⟩
  · exact absurd (hinv.logWrite_panicked hc b (Nat.not_le.mp hfull)) hpanic

omit [Fintype ι] in
theorem reachable_runSteps (h : Reachable s) (as : List (ι × Act)) :
    Reachable (runSteps (fun s x => step s x.1 x.2) s as) :=
  runSteps_induction (fun _ x _ hs hx => .step x.1 x.2 hs hx) as h

/-- Three operations begin on an empty log, each reserving `MAXOPBLOCKS`, and each writes ten
blocks of its own: operation `k` reads and logs blocks `10k` to `10k + 9`. -/
def logFull : Sys (Fin 3) :=
  runSteps (fun s x => step s x.1 x.2) Sys.init
    ((List.finRange 3).flatMap (fun k => [(k, .beginOp), (k, .run)]) ++
      (List.finRange 3).flatMap fun k => (List.range 10).flatMap fun j =>
        [(k, .bread (10 * k.val + j)), (k, .logWrite (10 * k.val + j))])

theorem log_write_panics_on_absorb :
    Reachable logFull ∧ logFull.pc 0 = .op ∧ 0 ∈ logFull.holds ∧ 0 ∈ logFull.written 0 ∧
      (logFull.written 0).length = MAXOPBLOCKS ∧
      (step logFull 0 (.logWrite 0)).map Sys.panicked = some (some "too big a transaction") :=
  ⟨reachable_runSteps .init _, rfl, by decide, by decide, by decide, rfl⟩

end Xv6.Log
