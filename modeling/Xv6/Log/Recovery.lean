import Xv6.Log.Basic

/-!
# Xv6.Log.Recovery — a transaction is installed whole or not at all

Fix a disk `d₀` with a clean log (`n = 0` in its header, as `mkfs`, every completed `commit` and
every completed recovery leave it), and a transaction `lh` whose blocks lie outside the log,
with the cached contents `cache`. Every state that `commit` cut short, or a recovery cut short,
can leave is `Recoverable`: either the header is clean and the home blocks are all old or all
new, or the header commits `lh`, the log holds the cached contents and some first `j` blocks
of `lh` are installed. A complete recovery from such a state ends with a clean header and the
home blocks all old or all new.

Every write of `install_trans` to block `b` writes `cache b`, so the home blocks after
installing any prefixes of `lh`, in any order and any number of times, are those of the
longest (`HomeAt.install`).
-/

namespace Xv6.Log

open Xv6.Lib

/-- Block `b` lies outside the log: it is neither the header block nor a log block. -/
def Outside (start b : Nat) : Prop :=
  b < start ∨ start + LOGBLOCKS < b

/-- `b` is among the first `j` blocks of `lh`. -/
def Logged (lh : Header) (j b : Nat) : Prop :=
  ∃ t < j, lh.block t = b

section Transaction

variable {α : Type*} (start : Nat) (lh : Header) (cache : Nat → α) (d₀ : Disk α)

/-- The first `j` blocks of `lh` hold their cached contents; every other block outside the log
holds what it held in `d₀`. -/
def HomeAt (j : Nat) (d : Disk α) : Prop :=
  ∀ b, Outside start b →
    (Logged lh j b → d.block b = cache b) ∧ (¬ Logged lh j b → d.block b = d₀.block b)

/-- The first `i` log blocks hold the cached contents of their blocks. -/
def LogWritten (i : Nat) (d : Disk α) : Prop :=
  ∀ t < i, d.block (start + t + 1) = cache (lh.block t)

/-- The header on disk commits `lh`. -/
def HeadIs (d : Disk α) : Prop :=
  d.head.n = lh.n ∧ ∀ t < lh.n, d.head.block t = lh.block t

/-- The log is clean and the transaction is absent or complete. -/
def Settled (d : Disk α) : Prop :=
  d.head.n = 0 ∧ (HomeAt start lh cache d₀ 0 d ∨ HomeAt start lh cache d₀ lh.n d)

/-- What a crash can leave, and what recovery starts from. -/
def Recoverable (d : Disk α) : Prop :=
  Settled start lh cache d₀ d ∨
    (HeadIs lh d ∧ LogWritten start lh cache lh.n d ∧ ∃ j ≤ lh.n, HomeAt start lh cache d₀ j d)

theorem Recoverable.of_settled {d : Disk α} (h : Settled start lh cache d₀ d) :
    Recoverable start lh cache d₀ d :=
  Or.inl h

variable {start lh cache d₀}

/-! ## Single writes -/

theorem homeAt_zero : HomeAt start lh cache d₀ 0 d₀ :=
  fun _ _ => ⟨fun ⟨_, ht, _⟩ => absurd ht (Nat.not_lt_zero _), fun _ => rfl⟩

/-- Writing a log block leaves the home blocks alone. -/
theorem HomeAt.bwrite_log {j t : Nat} {d : Disk α} (h : HomeAt start lh cache d₀ j d)
    (ht : t < LOGBLOCKS) (x : α) : HomeAt start lh cache d₀ j (d.bwrite (start + t + 1) x) := by
  intro b hb
  have hne : b ≠ start + t + 1 := by
    unfold Outside at hb
    omega
  simp only [Disk.bwrite, Function.update_of_ne hne]
  exact h b hb

/-- Writing a home block leaves the log blocks alone. -/
theorem LogWritten.bwrite_home {i b : Nat} {d : Disk α} (h : LogWritten start lh cache i d)
    (hi : i ≤ LOGBLOCKS) (hb : Outside start b) (x : α) :
    LogWritten start lh cache i (d.bwrite b x) := by
  intro t ht
  have hne : start + t + 1 ≠ b := by
    unfold Outside at hb
    omega
  simp only [Disk.bwrite, Function.update_of_ne hne]
  exact h t ht

/-- One iteration of `write_log`. -/
theorem LogWritten.succ {t : Nat} {d : Disk α} (h : LogWritten start lh cache t d) :
    LogWritten start lh cache (t + 1)
      (d.bwrite (start + t + 1) (cache (lh.block t))) := by
  intro u hu
  by_cases hut : u = t
  · subst hut
    simp [Disk.bwrite]
  · have hne : start + u + 1 ≠ start + t + 1 := by omega
    simp only [Disk.bwrite, Function.update_of_ne hne]
    exact h u (by omega)

theorem logged_max_succ {j t b : Nat} (hjt : t ≤ j) :
    Logged lh (max j (t + 1)) b ↔ Logged lh j b ∨ lh.block t = b := by
  constructor
  · rintro ⟨u, hu, rfl⟩
    by_cases hut : u < j
    · exact Or.inl ⟨u, hut, rfl⟩
    · have : u = t := by omega
      exact Or.inr (by rw [this])
  · rintro (⟨u, hu, rfl⟩ | rfl)
    · exact ⟨u, by omega, rfl⟩
    · exact ⟨t, by omega, rfl⟩

/-- One iteration of `install_trans`, from a disk with the log written: block `t` of `lh`
gets its cached contents. -/
theorem HomeAt.install {j t : Nat} {d : Disk α} (h : HomeAt start lh cache d₀ j d)
    (hlog : LogWritten start lh cache lh.n d) (ht : t < lh.n) (hjt : t ≤ j) :
    HomeAt start lh cache d₀ (max j (t + 1))
      (d.bwrite (lh.block t) (d.block (start + t + 1))) := by
  intro b hb
  rw [logged_max_succ hjt]
  by_cases hbt : lh.block t = b
  · subst hbt
    simp only [Disk.bwrite, Function.update_self]
    exact ⟨fun _ => hlog t ht, fun hno => (hno (Or.inr trivial)).elim⟩
  · simp only [Disk.bwrite, Function.update_of_ne (Ne.symm hbt)]
    constructor
    · rintro (hl | he)
      · exact (h b hb).1 hl
      · exact absurd he hbt
    · intro hno
      exact (h b hb).2 fun hl => hno (Or.inl hl)

/-! ## The phases of `commit` -/

section Commit

variable (hn : lh.n ≤ LOGBLOCKS) (hout : ∀ t < lh.n, Outside start (lh.block t))
include hn

/-- `write_log`: the header is still clean, so a crash leaves the home blocks as they were. -/
theorem writeLog_triple :
    CrashTriple (fun d => d.head.n = 0 ∧ HomeAt start lh cache d₀ 0 d)
      (writeLog start lh cache)
      (fun d => d.head.n = 0 ∧ HomeAt start lh cache d₀ 0 d ∧ LogWritten start lh cache lh.n d)
      (Recoverable start lh cache d₀) := by
  refine (CrashTriple.loop
    (fun i d => d.head.n = 0 ∧ HomeAt start lh cache d₀ 0 d ∧ LogWritten start lh cache i d)
    ?_ ?_).mono ?_ (fun _ h => h) (fun _ h => h)
  · intro i hi d ⟨hhead, hhome, hlog⟩
    exact ⟨hhead, hhome.bwrite_log (by omega) _, hlog.succ⟩
  · intro i _ d ⟨hhead, hhome, _⟩
    exact Or.inl ⟨hhead, Or.inl hhome⟩
  · intro d ⟨hhead, hhome⟩
    exact ⟨hhead, hhome, fun t ht => absurd ht (Nat.not_lt_zero _)⟩

omit hn in
/-- The first `write_head`, the point at which the transaction commits. -/
theorem commitHead_triple :
    CrashTriple
      (fun d => d.head.n = 0 ∧ HomeAt start lh cache d₀ 0 d ∧ LogWritten start lh cache lh.n d)
      [writeHead lh]
      (fun d => HeadIs lh d ∧ LogWritten start lh cache lh.n d ∧ HomeAt start lh cache d₀ 0 d)
      (Recoverable start lh cache d₀) := by
  apply CrashTriple.step
  · intro d ⟨hhead, hhome, _⟩
    exact Or.inl ⟨hhead, Or.inl hhome⟩
  · intro d ⟨_, hhome, hlog⟩
    refine ⟨⟨rfl, fun t ht => if_pos ht⟩, hlog, hhome⟩
  · intro d ⟨hhead, hlog, hhome⟩
    exact Or.inr ⟨hhead, hlog, 0, Nat.zero_le _, hhome⟩

include hout

/-- `install_trans` from a committed header, with the first `j` blocks already installed. -/
theorem installTrans_triple {j : Nat} (hj : j ≤ lh.n) :
    CrashTriple
      (fun d => HeadIs lh d ∧ LogWritten start lh cache lh.n d ∧ HomeAt start lh cache d₀ j d)
      (installTrans start lh)
      (fun d => HeadIs lh d ∧ LogWritten start lh cache lh.n d ∧
        HomeAt start lh cache d₀ lh.n d)
      (Recoverable start lh cache d₀) := by
  -- before iteration `i`, the longer of `j` and `i` is installed
  refine (CrashTriple.loop (fun i d => HeadIs lh d ∧ LogWritten start lh cache lh.n d ∧
      HomeAt start lh cache d₀ (max j i) d) ?_ ?_).mono ?_ ?_ (fun _ h => h)
  · intro i hi d ⟨hhead, hlog, hhome⟩
    refine ⟨hhead, hlog.bwrite_home hn (hout i hi) _, ?_⟩
    have hmax : max (max j i) (i + 1) = max j (i + 1) := by omega
    rw [← hmax]
    exact hhome.install hlog hi (by omega)
  · intro i hi d ⟨hhead, hlog, hhome⟩
    exact Or.inr ⟨hhead, hlog, max j i, by omega, hhome⟩
  · intro d ⟨hhead, hlog, hhome⟩
    rw [Nat.max_zero]
    exact ⟨hhead, hlog, hhome⟩
  · intro d ⟨hhead, hlog, hhome⟩
    rw [Nat.max_eq_right hj] at hhome
    exact ⟨hhead, hlog, hhome⟩

omit hn hout in
/-- The last `write_head`, which erases the transaction from the log. -/
theorem clearHead_triple (h : Header) :
    CrashTriple
      (fun d => HeadIs lh d ∧ LogWritten start lh cache lh.n d ∧
        HomeAt start lh cache d₀ lh.n d)
      [writeHead { h with n := 0 }]
      (Settled start lh cache d₀) (Recoverable start lh cache d₀) := by
  apply CrashTriple.step
  · intro d ⟨hhead, hlog, hhome⟩
    exact Or.inr ⟨hhead, hlog, lh.n, Nat.le_refl _, hhome⟩
  · intro d ⟨_, _, hhome⟩
    exact ⟨rfl, Or.inr hhome⟩
  · exact fun d => Recoverable.of_settled start lh cache d₀

/-- `commit` from `d₀`: a crash leaves a recoverable disk, and a complete commit a settled one. -/
theorem commit_triple (hclean : d₀.head.n = 0) :
    CrashTriple (· = d₀) (commit start lh cache)
      (Settled start lh cache d₀) (Recoverable start lh cache d₀) := by
  unfold commit
  split
  · refine (((writeLog_triple hn).append commitHead_triple).append
      (installTrans_triple hn hout (Nat.zero_le _))).append (clearHead_triple lh) |>.mono
      ?_ (fun _ h => h) (fun _ h => h)
    rintro d rfl
    exact ⟨hclean, homeAt_zero⟩
  · refine (CrashTriple.nil (fun d h => Recoverable.of_settled start lh cache d₀ h)).mono
      ?_ (fun _ h => h) (fun _ h => h)
    rintro d rfl
    exact ⟨hclean, Or.inl homeAt_zero⟩

/-! ## Recovery -/

/-- `recover_from_log` from any recoverable disk: a crash leaves a recoverable disk again, and
a complete recovery a settled one. -/
theorem recoverFromLog_triple (mem : Header) {d : Disk α} (hd : Recoverable start lh cache d₀ d) :
    CrashTriple (· = d) (recoverFromLog start mem d)
      (Settled start lh cache d₀) (Recoverable start lh cache d₀) := by
  unfold recoverFromLog
  rcases hd with ⟨hclean, hhome⟩ | ⟨hhead, hlog, j, hj, hhome⟩
  · -- a clean header: nothing to install, and the header is written clean again
    have hzero : (readHead mem d).n = 0 := hclean
    have hnil : installTrans start (readHead mem d) = ([] : List (Disk α → Disk α)) := by
      rw [installTrans, hzero]
      rfl
    rw [hnil]
    -- writing a clean header keeps a settled disk settled
    have hstep : CrashTriple (Settled start lh cache d₀) [writeHead { readHead mem d with n := 0 }]
        (Settled start lh cache d₀) (Recoverable start lh cache d₀) :=
      CrashTriple.step _ (fun _ h => Recoverable.of_settled start lh cache d₀ h)
        (fun _ h => ⟨rfl, h.2⟩) (fun _ h => Recoverable.of_settled start lh cache d₀ h)
    refine ((CrashTriple.nil fun _ h => Recoverable.of_settled start lh cache d₀ h).append
      hstep).mono ?_ (fun _ h => h) (fun _ h => h)
    rintro _ rfl
    exact ⟨hclean, hhome⟩
  · -- a committed header: `read_head` reads `lh` back, and the installation is redone
    have hblock : ∀ t ∈ List.range lh.n, (readHead mem d).block t = lh.block t := by
      intro t ht
      rw [List.mem_range] at ht
      have ht' : t < d.head.n := by rw [hhead.1]; exact ht
      show (if t < d.head.n then d.head.block t else mem.block t) = lh.block t
      rw [if_pos ht', hhead.2 t ht]
    have hread : (installTrans start (readHead mem d) : List (Disk α → Disk α)) =
        installTrans start lh := by
      unfold installTrans loop
      rw [show (readHead mem d).n = lh.n from hhead.1]
      apply List.map_congr_left
      intro t ht
      rw [hblock t ht]
    rw [hread]
    refine ((installTrans_triple hn hout hj).append (clearHead_triple _)).mono ?_
      (fun _ h => h) (fun _ h => h)
    rintro _ rfl
    exact ⟨hhead, hlog, hhome⟩

end Commit

end Transaction

/-! ## Crashes and reboots -/

/-- Boot with `recover_from_log`, cut short after `c` single-block writes. -/
def recoverCut {α : Type*} (start : Nat) (d : Disk α) (c : Nat) : Disk α :=
  runAll ((recoverFromLog start Header.zero d).take c) d

/-- `commit` cut short after `k` single-block writes; then one boot cut short after `c` writes
for each `c` in `cuts`; then a boot whose `recover_from_log` completes. -/
def afterCrash {α : Type*} (start : Nat) (lh : Header) (cache : Nat → α) (k : Nat)
    (cuts : List Nat) (d₀ : Disk α) : Disk α :=
  let d := cuts.foldl (recoverCut start) (runAll ((commit start lh cache).take k) d₀)
  runAll (recoverFromLog start Header.zero d) d

theorem afterCrash_settled {α : Type*} {start : Nat} {lh : Header} {cache : Nat → α}
    {d₀ : Disk α} (hclean : d₀.head.n = 0) (hn : lh.n ≤ LOGBLOCKS)
    (hout : ∀ t < lh.n, Outside start (lh.block t)) (k : Nat) (cuts : List Nat) :
    Settled start lh cache d₀ (afterCrash start lh cache k cuts d₀) := by
  -- every cut boot keeps the disk recoverable
  have hcuts : ∀ (cs : List Nat) (d : Disk α), Recoverable start lh cache d₀ d →
      Recoverable start lh cache d₀ (cs.foldl (recoverCut start) d) := by
    intro cs
    induction cs with
    | nil => exact fun _ hd => hd
    | cons c cs ih =>
      intro d hd
      exact ih _ ((recoverFromLog_triple hn hout Header.zero hd).crash d rfl c)
  have hd := hcuts cuts _ ((commit_triple hn hout hclean).crash d₀ rfl k)
  exact (recoverFromLog_triple hn hout Header.zero hd).post _ rfl

/-- Whatever the crash point of `commit`, however many recoveries are cut short, once one
completes every block outside the log holds its contents from before the transaction, or every
such block holds the transaction's cached contents if logged and its old contents if not. -/
theorem recover_all_or_nothing {α : Type*} (start : Nat) (d₀ : Disk α) (hclean : d₀.head.n = 0)
    (lh : Header) (hn : lh.n ≤ LOGBLOCKS) (hout : ∀ t < lh.n, Outside start (lh.block t))
    (cache : Nat → α) (k : Nat) (cuts : List Nat) :
    (∀ b, Outside start b → (afterCrash start lh cache k cuts d₀).block b = d₀.block b) ∨
    (∀ b, Outside start b → (afterCrash start lh cache k cuts d₀).block b =
      if ∃ t < lh.n, lh.block t = b then cache b else d₀.block b) := by
  rcases (afterCrash_settled hclean hn hout k cuts).2 with hold | hnew
  · left
    intro b hb
    exact (hold b hb).2 fun ⟨_, ht, _⟩ => absurd ht (Nat.not_lt_zero _)
  · right
    intro b hb
    split
    · exact (hnew b hb).1 ‹_›
    · exact (hnew b hb).2 ‹_›

/-- Blocks 40 and 41, logged from block 2 on. -/
def pairHeader : Header := ⟨2, fun t => 40 + t⟩

/-- A disk of zeros with a clean header, as `mkfs` leaves the log. -/
def zeroDisk : Disk Nat := ⟨Header.zero, fun _ => 0⟩

/-- The transaction of `pairHeader`, with cached contents `b + 100`, cut after its first home
write; the first boot is cut after one write, the second completes. -/
def pairCut : Disk Nat :=
  afterCrash 2 pairHeader (fun b => b + 100) 4 [1] zeroDisk

theorem recover_all_or_nothing_pair :
    pairCut.block 41 = 141 ∧
      ((∀ b, Outside 2 b → pairCut.block b = zeroDisk.block b) ∨
        (∀ b, Outside 2 b → pairCut.block b =
          if ∃ t < pairHeader.n, pairHeader.block t = b then b + 100 else zeroDisk.block b)) :=
  ⟨by decide, recover_all_or_nothing 2 zeroDisk rfl pairHeader (by decide)
    (fun t ht => Or.inr (show 2 + 30 < 40 + t by omega)) _ 4 [1]⟩

end Xv6.Log
