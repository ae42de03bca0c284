import Xv6.Vm.Copy
import Xv6.Vm.Uvm

/-!
# Xv6.Exec.Stack — the user stack `kexec` builds

`kexec` ends by giving the new image its stack: `uvmalloc` of `USERSTACK + 1` pages at the next
page boundary, `uvmclear` of the first as a guard page, and then, from the top down, each argument
string in a 16-byte-aligned slot of its own and below them the array of their addresses closed by
`0`, each `copyout` after a check against `stackbase`.

Where the strings go is `argAddrs`: each takes its length and its `NUL` rounded up to 16
(`roundup16`), right below the one before; `argsFit` says the strings and the array fit in the
stack pages. For fewer than `MAXARG` strings each shorter than a page, the `uint64` subtractions
on `sp` never wrap (`sub64_round`), a run of the string loop puts each string in its slot
(`kexecArgLoop_run`), and `kexec_stack` gives the whole stack: the strings in their slots, the
array at `sp`, the guard page without `PTE_U`, and failure exactly when the arguments do not fit
or memory runs out.
-/

namespace Xv6.Exec

open Xv6.Lib Xv6.Vm

/-- Maximum number of `exec` arguments. -/
def MAXARG : Nat := 32

/-- Pages of user stack. -/
def USERSTACK : Nat := 1

/-- A C string: the bytes before its `NUL`, none of which is `0`. -/
structure CStr where
  bytes : List UInt8
  no_nul : (0 : UInt8) ∉ bytes

/-- `strlen(s)`. -/
def CStr.strlen (s : CStr) : Nat := s.bytes.length

/-- The kernel buffer that holds `s`: its bytes, then `NUL`. -/
def CStr.buf (s : CStr) : Nat → UInt8 := fun j => s.bytes.getD j 0

/-- `a - b` on `uint64`. -/
def sub64 (a b : Nat) : Nat := (a + (2 ^ 64 - b % 2 ^ 64)) % 2 ^ 64

/-! ## The functions -/

/-- The loop of `kexec` that copies the argument strings onto the stack below `sp`, keeping their
addresses in `ustack[]` from index `argc` on; `none` is `goto bad`. -/
def kexecArgLoop (p : Proc) (pt stackbase : Nat) :
    List CStr → (argc sp : Nat) → (Nat → UInt8) → Machine →
      Except String (Option (Nat × Nat × (Nat → UInt8) × Machine))
  | [], argc, sp, ustack, m => pure (some (argc, sp, ustack, m))
  | s :: argv, argc, sp, ustack, m =>
    if argc ≥ MAXARG then pure none
    else
      let sp := sub64 sp (s.strlen + 1)
      -- riscv sp must be 16-byte aligned
      let sp := sp - sp % 16
      if sp < stackbase then pure none
      else do
        let (r, m) ← copyout p m pt sp s.buf (s.strlen + 1)
        if r < 0 then pure none
        else kexecArgLoop p pt stackbase argv (argc + 1) sp (storeLE ustack (8 * argc) sp 8) m

/-- The end of `kexec`'s stack setup: `ustack[argc] = 0`, and the array `ustack[0..argc]` pushed
below `sp`; the new `sp`, or `none` for `goto bad`. -/
def pushUstack (p : Proc) (pt stackbase argc sp : Nat) (ustack : Nat → UInt8) (m : Machine) :
    Except String (Option (Nat × Machine)) :=
  let ustack := storeLE ustack (8 * argc) 0 8
  -- push a copy of ustack[], the array of argv[] pointers
  let sp := sub64 sp ((argc + 1) * 8)
  let sp := sp - sp % 16
  if sp < stackbase then pure none
  else do
    let (r, m) ← copyout p m pt sp ustack ((argc + 1) * 8)
    if r < 0 then pure none
    else pure (some (sp, m))

/-- The stack setup of `kexec` in process `p`, from `sz = PGROUNDUP(sz)` to the last `copyout`,
for the image `pagetable` of size `sz` and the kernel's `ustack[]` buffer: `argc`, the new size
and `sp`, or `none` for `goto bad`. Past a successful `uvmalloc` the size is at least
`(USERSTACK + 1) * PGSIZE`, so the two subtractions from it do not wrap. -/
def kexecStack (p : Proc) (m : Machine) (pt sz : Nat) (argv : List CStr) (ustack : Nat → UInt8) :
    Except String (Option (Nat × Nat × Nat × Machine)) := do
  let sz := PGROUNDUP sz
  let (sz1, m) ← uvmalloc m pt sz (sz + (USERSTACK + 1) * PGSIZE) PTE_W
  if sz1 = 0 then pure none
  else
    let sz := sz1
    let m ← uvmclear m pt (sz - (USERSTACK + 1) * PGSIZE)
    let sp := sz
    let stackbase := sp - USERSTACK * PGSIZE
    match ← kexecArgLoop p pt stackbase argv 0 sp ustack m with
    | none => pure none
    | some (argc, sp, ustack, m) =>
      match ← pushUstack p pt stackbase argc sp ustack m with
      | none => pure none
      | some (sp, m) => pure (some (argc, sz, sp, m))

/-! ## Where the arguments go -/

/-- `n` rounded up to a multiple of 16: what `sp -= n; sp -= sp % 16` takes from an aligned
`sp`. -/
def roundup16 (n : Nat) : Nat := (n + 15) / 16 * 16

/-- The slots of the strings of `argv` below `top`: each right below the one before, taking its
length and its `NUL` rounded up to 16. -/
def argAddrs (top : Nat) : List CStr → List Nat
  | [] => []
  | s :: argv => (top - roundup16 (s.strlen + 1)) :: argAddrs (top - roundup16 (s.strlen + 1)) argv

/-- The room the strings of `argv` take. -/
def argsRoom : List CStr → Nat
  | [] => 0
  | s :: argv => roundup16 (s.strlen + 1) + argsRoom argv

/-- The strings of `argv` and the array of their `argc + 1` addresses fit in the `USERSTACK`
stack pages. -/
def argsFit (argv : List CStr) : Prop :=
  argsRoom argv + roundup16 ((argv.length + 1) * 8) ≤ USERSTACK * PGSIZE

instance (argv : List CStr) : Decidable (argsFit argv) :=
  inferInstanceAs (Decidable (_ ≤ _))

/-- The `n`-byte little-endian number the image `q` reads at `va`, when it can read each of the
bytes. -/
def loadUser (m : Machine) (q : Proc) (va n : Nat) : Option Nat :=
  if ∀ j, j < n → (m.view q (va + j)).isSome then
    some (loadLE (fun a => (m.view q a).getD 0) va n)
  else none

theorem roundup16_ge (n : Nat) : n ≤ roundup16 n := by
  unfold roundup16
  omega

theorem roundup16_mod (n : Nat) : roundup16 n % 16 = 0 := by
  unfold roundup16
  omega

theorem argsRoom_mod (argv : List CStr) : argsRoom argv % 16 = 0 := by
  induction argv with
  | nil => rfl
  | cons s argv ih =>
    have h := roundup16_mod (s.strlen + 1)
    rw [argsRoom]
    omega

/-- From a 16-byte-aligned `sp` with `n` bytes below it, `sp -= n; sp -= sp % 16` on `uint64`
takes exactly `roundup16 n`: nothing wraps. -/
theorem sub64_round {sp n : Nat} (hal : sp % 16 = 0) (hn : n ≤ sp) (hsp : sp < 2 ^ 64) :
    sub64 sp n - sub64 sp n % 16 = sp - roundup16 n := by
  have hsub : sub64 sp n = sp - n := by
    unfold sub64
    rw [Nat.mod_eq_of_lt (by omega : n < 2 ^ 64)]
    omega
  rw [hsub]
  unfold roundup16
  omega

theorem argAddrs_length (top : Nat) (argv : List CStr) : (argAddrs top argv).length = argv.length := by
  induction argv generalizing top with
  | nil => rfl
  | cons s argv ih => simp only [argAddrs, List.length_cons, ih]

/-- Below a 16-byte-aligned `top` with room for the strings, each slot is aligned and holds its
string and its `NUL` within `[top - argsRoom argv, top)`. -/
theorem argAddrs_slot {argv : List CStr} :
    ∀ (top : Nat), top % 16 = 0 → argsRoom argv ≤ top → ∀ i (hi : i < argv.length),
      (argAddrs top argv).getD i 0 % 16 = 0 ∧ top - argsRoom argv ≤ (argAddrs top argv).getD i 0 ∧
        (argAddrs top argv).getD i 0 + argv[i].strlen + 1 ≤ top := by
  induction argv with
  | nil => exact fun _ _ _ i hi => absurd hi (Nat.not_lt_zero i)
  | cons s argv ih =>
    intro top hal hroom i hi
    have hr := roundup16_ge (s.strlen + 1)
    have hm := roundup16_mod (s.strlen + 1)
    rw [argsRoom] at hroom ⊢
    cases i with
    | zero =>
      -- the first string sits right below `top`
      simp only [argAddrs, List.getD_cons_zero, List.getElem_cons_zero]
      omega
    | succ i =>
      -- the rest sit below the first, from its slot down
      obtain ⟨h1, h2, h3⟩ := ih (top - roundup16 (s.strlen + 1)) (by omega) (by omega) i
        (by simpa using hi)
      simp only [argAddrs, List.getD_cons_succ, List.getElem_cons_succ]
      omega

/-! ## The string loop -/

/-- A run of `kexec`'s string loop from a 16-byte-aligned `sp` in `[stackbase, top]` over writable
user pages `[stackbase, top)` below `TRAMPOLINE`, with at most `MAXARG` strings in all, each
shorter than a page. When the strings do not fit above `stackbase` it gives up. When they fit,
each string and its `NUL` are in the slot `argAddrs` gives it, the view is unchanged outside the
room the strings took, every translation is as it was, and `ustack[]` holds the slots from index
`argc` on. -/
theorem kexecArgLoop_run (p q : Proc) {stackbase top : Nat} (hsb : PGSIZE ≤ stackbase)
    (htop : top ≤ TRAMPOLINE) :
    ∀ (argv : List CStr) (argc sp : Nat) (ustack : Nat → UInt8) (m : Machine), Wf m q.pagetable →
      (∀ a, stackbase ≤ a → a < top →
        ∃ v, m.leaf q.pagetable a = some v ∧ v &&& PTE_U ≠ 0 ∧ v &&& PTE_W ≠ 0) →
      sp % 16 = 0 → stackbase ≤ sp → sp ≤ top → argc + argv.length ≤ MAXARG →
      (∀ s ∈ argv, s.strlen < PGSIZE) →
      ∃ r, kexecArgLoop p q.pagetable stackbase argv argc sp ustack m = .ok r ∧
        (sp < stackbase + argsRoom argv → r = none) ∧
        (stackbase + argsRoom argv ≤ sp → ∃ ustack' m',
          r = some (argc + argv.length, sp - argsRoom argv, ustack', m') ∧ Wf m' q.pagetable ∧
          (∀ a, m'.leaf q.pagetable a = m.leaf q.pagetable a) ∧
          (∀ a, a < MAXVA → (a < sp - argsRoom argv ∨ sp ≤ a) → m'.view q a = m.view q a) ∧
          (∀ i (hi : i < argv.length), ∀ j, j ≤ argv[i].strlen →
            m'.view q ((argAddrs sp argv).getD i 0 + j) = some (argv[i].buf j)) ∧
          (∀ i, i < argc → loadLE ustack' (8 * i) 8 = loadLE ustack (8 * i) 8) ∧
          ∀ i, i < argv.length → loadLE ustack' (8 * (argc + i)) 8 = (argAddrs sp argv).getD i 0) := by
  have hT : TRAMPOLINE < 2 ^ 64 := by decide
  have hTM := TRAMPOLINE_lt_MAXVA
  intro argv
  -- induction on the strings left, one string a turn
  induction argv with
  | nil =>
    intro argc sp ustack m hW _ _ hsp _ _ _
    refine ⟨_, rfl, fun h => by simp only [argsRoom] at h; omega, fun _ => ?_⟩
    refine ⟨ustack, m, rfl, hW, fun _ => rfl, fun _ _ _ => rfl, fun i hi => absurd hi (by simp),
      fun _ _ => rfl, fun i hi => absurd hi (by simp)⟩
  | cons s argv ih =>
    intro argc sp ustack m hW hstack hal hsp htp hmax hlen
    have hs : s.strlen < PGSIZE := hlen s List.mem_cons_self
    have hr := roundup16_ge (s.strlen + 1)
    have hm := roundup16_mod (s.strlen + 1)
    have hround := sub64_round hal (by omega : s.strlen + 1 ≤ sp) (by omega)
    have hargc : ¬ argc ≥ MAXARG := by
      simp only [List.length_cons] at hmax
      omega
    -- the string's slot: right below `sp`
    set sp₁ := sp - roundup16 (s.strlen + 1) with hsp₁
    have hroom : argsRoom (s :: argv) = roundup16 (s.strlen + 1) + argsRoom argv := rfl
    have hturn : kexecArgLoop p q.pagetable stackbase (s :: argv) argc sp ustack m =
        (if sp₁ < stackbase then pure none
        else do
          let (r, m) ← copyout p m q.pagetable sp₁ s.buf (s.strlen + 1)
          if r < 0 then pure none
          else
            kexecArgLoop p q.pagetable stackbase argv (argc + 1) sp₁
              (storeLE ustack (8 * argc) sp₁ 8) m) := by
      rw [kexecArgLoop, if_neg hargc]
      dsimp only
      rw [hround]
    by_cases hchk : sp₁ < stackbase
    · -- no room for this string: `goto bad`
      refine ⟨none, by rw [hturn, if_pos hchk]; rfl, fun _ => rfl, fun h => ?_⟩
      rw [hroom] at h
      omega
    · -- the string and its `NUL` go to `[sp₁, sp₁ + strlen + 1)`, inside the stack pages
      obtain ⟨m₁, hco, hW₁, hl₁, hview₁⟩ := copyout_mapped_run (p := p) (s.strlen + 1) sp₁ s.buf m
        hW fun a h1 h2 => ⟨by omega, hstack a (by omega) (by omega)⟩
      have hstack₁ : ∀ a, stackbase ≤ a → a < top →
          ∃ v, m₁.leaf q.pagetable a = some v ∧ v &&& PTE_U ≠ 0 ∧ v &&& PTE_W ≠ 0 := by
        intro a h1 h2
        rw [hl₁ a]
        exact hstack a h1 h2
      obtain ⟨r, hrun, hfail, hok⟩ := ih (argc + 1) sp₁ (storeLE ustack (8 * argc) sp₁ 8) m₁ hW₁
        hstack₁ (by omega) (by omega) (by omega) (by simp only [List.length_cons] at hmax; omega)
        fun s' hs' => hlen s' (List.mem_cons_of_mem s hs')
      have hrun' : kexecArgLoop p q.pagetable stackbase (s :: argv) argc sp ustack m = .ok r := by
        rw [hturn, if_neg hchk, hco, ok_bind]
        exact hrun
      refine ⟨r, hrun', fun h => hfail (by rw [hroom] at h; omega), fun h => ?_⟩
      rw [hroom] at h
      obtain ⟨ustack', m', rfl, hW', hl', hview', hstr', hold', hnew'⟩ := hok (by omega)
      have hlen' : argc + 1 + argv.length = argc + (s :: argv).length := by
        simp only [List.length_cons]
        omega
      have hsp' : sp₁ - argsRoom argv = sp - argsRoom (s :: argv) := by
        rw [hroom]
        omega
      refine ⟨ustack', m', by rw [hlen', hsp'], hW', fun a => (hl' a).trans (hl₁ a),
        fun a ha hout => ?_, fun i hi j hj => ?_, fun i hi => ?_, fun i hi => ?_⟩
      · -- outside the room the strings took, neither the rest nor this string wrote
        rw [← hsp'] at hout
        rw [hview' a ha (by omega), hview₁ a ha, if_neg (by omega)]
      · cases i with
        | zero =>
          -- this string, which the rest of the loop left alone
          simp only [List.getElem_cons_zero] at hj ⊢
          simp only [argAddrs, List.getD_cons_zero]
          rw [hview' _ (by omega) (.inr (by omega)), hview₁ _ (by omega),
            if_pos (by omega), Nat.add_sub_cancel_left]
        | succ i =>
          simp only [List.getElem_cons_succ] at hj ⊢
          simp only [argAddrs, List.getD_cons_succ]
          exact hstr' i (by simpa using hi) j hj
      · rw [hold' i (by omega), loadLE_storeLE_of_disjoint (by omega)]
      · cases i with
        | zero =>
          -- `ustack[argc] = sp`
          rw [Nat.add_zero, hold' argc (by omega), loadLE_storeLE, Nat.mod_eq_of_lt (by omega)]
          simp only [argAddrs, List.getD_cons_zero, ← hsp₁]
        | succ i =>
          have e : argc + (i + 1) = argc + 1 + i := by omega
          rw [e, hnew' i (by simpa using hi)]
          simp only [argAddrs, List.getD_cons_succ, ← hsp₁]

/-! ## The pointer array -/

/-- The image reads a number off bytes it shows one by one. -/
theorem loadUser_of_view {m : Machine} {q : Proc} {va n off : Nat} {b : Nat → UInt8}
    (h : ∀ j, j < n → m.view q (va + j) = some (b (off + j))) :
    loadUser m q va n = some (loadLE b off n) := by
  unfold loadUser
  rw [if_pos fun j hj => by rw [h j hj]; rfl]
  congr 1
  apply loadLE_congr_shift
  intro j hj
  rw [h j hj]
  rfl

/-- `ustack[argc] = 0` after `ustack[0..argc)` held `addrs`: the array `addrs` closed by `0`. -/
theorem ustack_words {ustack : Nat → UInt8} {addrs : List Nat}
    (h : ∀ i, i < addrs.length → loadLE ustack (8 * i) 8 = addrs.getD i 0) :
    ∀ i, i ≤ addrs.length →
      loadLE (storeLE ustack (8 * addrs.length) 0 8) (8 * i) 8 = (addrs ++ [0]).getD i 0 := by
  intro i hi
  rcases Nat.lt_or_eq_of_le hi with hlt | rfl
  · rw [loadLE_storeLE_of_disjoint (by omega), h i hlt, List.getD_append _ _ _ _ hlt]
  · rw [loadLE_storeLE, List.getD_append_right _ _ _ _ (le_refl _), Nat.sub_self]
    rfl

/-- `ustack[argc] = 0` and the push of the array below a 16-byte-aligned `sp` in
`[stackbase, TRAMPOLINE]`, over writable user pages `[stackbase, sp)`, for `argc < MAXARG`. It
gives up when the array does not fit above `stackbase`; else the array lies at
`sp - roundup16((argc + 1) * 8)`, the memory stays well formed with every translation, and the
view is unchanged outside the array. -/
theorem pushUstack_run (p q : Proc) {stackbase argc sp : Nat} (ustack : Nat → UInt8) {m : Machine}
    (hW : Wf m q.pagetable)
    (hstack : ∀ a, stackbase ≤ a → a < sp →
      ∃ v, m.leaf q.pagetable a = some v ∧ v &&& PTE_U ≠ 0 ∧ v &&& PTE_W ≠ 0)
    (hal : sp % 16 = 0) (hargc : argc < MAXARG) (hsb : PGSIZE ≤ stackbase) (hsp : stackbase ≤ sp)
    (htop : sp ≤ TRAMPOLINE) :
    ∃ r, pushUstack p q.pagetable stackbase argc sp ustack m = .ok r ∧
      (sp - roundup16 ((argc + 1) * 8) < stackbase → r = none) ∧
      (stackbase ≤ sp - roundup16 ((argc + 1) * 8) → ∃ m',
        r = some (sp - roundup16 ((argc + 1) * 8), m') ∧ Wf m' q.pagetable ∧
        (∀ a, m'.leaf q.pagetable a = m.leaf q.pagetable a) ∧
        ∀ a, a < MAXVA → m'.view q a =
          if sp - roundup16 ((argc + 1) * 8) ≤ a ∧ a < sp - roundup16 ((argc + 1) * 8) + (argc + 1) * 8
          then some (storeLE ustack (8 * argc) 0 8 (a - (sp - roundup16 ((argc + 1) * 8))))
          else m.view q a) := by
  have hT : TRAMPOLINE < 2 ^ 64 := by decide
  have hP : 0 < PGSIZE := by decide
  have hr := roundup16_ge ((argc + 1) * 8)
  have hround := sub64_round hal (by unfold MAXARG at hargc; unfold PGSIZE at hsb; omega :
    (argc + 1) * 8 ≤ sp) (by omega)
  set spf := sp - roundup16 ((argc + 1) * 8) with hspf
  have hpush : pushUstack p q.pagetable stackbase argc sp ustack m =
      (if spf < stackbase then pure none
      else do
        let (r, m) ← copyout p m q.pagetable spf (storeLE ustack (8 * argc) 0 8) ((argc + 1) * 8)
        if r < 0 then pure none
        else pure (some (spf, m))) := by
    rw [pushUstack]
    dsimp only
    rw [hround]
  by_cases hchk : spf < stackbase
  · -- no room for the array: `goto bad`
    exact ⟨none, by rw [hpush, if_pos hchk]; rfl, fun _ => rfl, fun h => absurd h (by omega)⟩
  · -- the array goes to `[spf, spf + (argc + 1) * 8)`, inside the stack pages
    obtain ⟨m', hco, hW', hl', hview'⟩ := copyout_mapped_run (p := p) ((argc + 1) * 8) spf
      (storeLE ustack (8 * argc) 0 8) m hW fun a h1 h2 => ⟨by omega, hstack a (by omega) (by omega)⟩
    refine ⟨some (spf, m'), ?_, fun h => absurd h hchk, fun _ => ⟨m', rfl, hW', hl', hview'⟩⟩
    rw [hpush, if_neg hchk, hco, ok_bind]
    rfl

/-- The words of `ustack` closed by `0`, shown by the view at `sp` as `pushUstack` stores them: the
image reads each back as its address. -/
theorem loadUser_ustack {m : Machine} {q : Proc} {sp : Nat} (ustack : Nat → UInt8)
    {addrs : List Nat}
    (hview : ∀ j, j < (addrs.length + 1) * 8 →
      m.view q (sp + j) = some (storeLE ustack (8 * addrs.length) 0 8 j))
    (hwords : ∀ k, k < addrs.length → loadLE ustack (8 * k) 8 = addrs.getD k 0) :
    ∀ i, i ≤ addrs.length → loadUser m q (sp + 8 * i) 8 = some ((addrs ++ [0]).getD i 0) := by
  intro i hi
  have hbytes : ∀ j, j < 8 →
      m.view q (sp + 8 * i + j) = some (storeLE ustack (8 * addrs.length) 0 8 (8 * i + j)) := by
    intro j hj
    rw [Nat.add_assoc]
    exact hview _ (by omega)
  rw [loadUser_of_view hbytes, ustack_words hwords i hi]

/-! ## The stack -/

/-- The start of `kexec`'s stack: `uvmalloc` of the `USERSTACK + 1` pages from `PGROUNDUP(sz)`,
then `uvmclear` of the lowest. Either `uvmalloc` runs out of pages and `kexec` fails, or the
guard page is mapped without `PTE_U`, the pages above it are writable user pages, and `kexec`
returns what its string loop and the push of `ustack` make of them. -/
theorem kexecStack_guard (p : Proc) (ustack : Nat → UInt8) {m : Machine} {pt sz : Nat}
    (argv : List CStr) (hW : Wf m pt)
    (htop : PGROUNDUP sz + (USERSTACK + 1) * PGSIZE ≤ TRAMPOLINE)
    (hnone : ∀ b, PGROUNDUP sz ≤ b → b < PGROUNDUP sz + (USERSTACK + 1) * PGSIZE →
      m.leaf pt b = none) :
    (kexecStack p m pt sz argv ustack = .ok none ∧ m.free.length < 3 * (USERSTACK + 1)) ∨
    ∃ m₂, Wf m₂ pt ∧
      (∃ v, m₂.leaf pt (PGROUNDUP sz) = some v ∧ v &&& PTE_U = 0) ∧
      (∀ a, PGROUNDUP sz + (USERSTACK + 1) * PGSIZE - USERSTACK * PGSIZE ≤ a →
        a < PGROUNDUP sz + (USERSTACK + 1) * PGSIZE →
        ∃ v, m₂.leaf pt a = some v ∧ v &&& PTE_U ≠ 0 ∧ v &&& PTE_W ≠ 0) ∧
      (kexecArgLoop p pt (PGROUNDUP sz + (USERSTACK + 1) * PGSIZE - USERSTACK * PGSIZE) argv 0
          (PGROUNDUP sz + (USERSTACK + 1) * PGSIZE) ustack m₂ = .ok none →
        kexecStack p m pt sz argv ustack = .ok none) ∧
      ∀ argc sp ustack' m₃,
        kexecArgLoop p pt (PGROUNDUP sz + (USERSTACK + 1) * PGSIZE - USERSTACK * PGSIZE) argv 0
          (PGROUNDUP sz + (USERSTACK + 1) * PGSIZE) ustack m₂ = .ok (some (argc, sp, ustack', m₃)) →
        kexecStack p m pt sz argv ustack =
          (pushUstack p pt (PGROUNDUP sz + (USERSTACK + 1) * PGSIZE - USERSTACK * PGSIZE) argc sp
            ustack' m₃).map (Option.map fun r => (argc, PGROUNDUP sz + (USERSTACK + 1) * PGSIZE,
              r.1, r.2)) := by
  have hP : PGSIZE = 4096 := rfl
  have hU : USERSTACK = 1 := rfl
  have hs := PGROUNDUP_aligned sz
  have hss : PGROUNDUP (PGROUNDUP sz) = PGROUNDUP sz := PGROUNDUP_of_aligned hs
  set s := PGROUNDUP sz with hs_def
  set sz' := s + (USERSTACK + 1) * PGSIZE with hsz'
  have hsz'v : sz' = s + 2 * 4096 := by rw [hsz', hU, hP]
  have hUP : USERSTACK * PGSIZE = 4096 := rfl
  have hTM := TRAMPOLINE_lt_MAXVA
  rw [hP] at hs
  obtain ⟨r₁, m₁, hua, hW₁, hres⟩ := uvmalloc_run hW (by decide : PTE_R ||| PTE_U ||| PTE_W < 2 ^ 10)
    (Nat.le_add_right s ((USERSTACK + 1) * PGSIZE)) htop (by rw [hss]; exact hnone)
  rcases hres with ⟨rfl, hmapped, -, -⟩ | ⟨rfl, hfew, -, -, -⟩
  · right
    rw [hss] at hmapped
    -- `uvmclear` of the guard page
    obtain ⟨q₀, -, hl₀, -⟩ := hmapped s (le_refl s) (by omega)
    obtain ⟨m₂, huc, hW₂, hguard, hother₂, -, -, -⟩ :=
      uvmclear_run hW₁ (by omega : s < TRAMPOLINE) hl₀
    -- the pages above it keep the translations `uvmalloc` gave them
    have hstack : ∀ a, sz' - USERSTACK * PGSIZE ≤ a → a < sz' →
        ∃ v, m₂.leaf pt a = some v ∧ v &&& PTE_U ≠ 0 ∧ v &&& PTE_W ≠ 0 := by
      intro a h1 h2
      obtain ⟨q, -, hl, -⟩ := hmapped a (by omega) h2
      have hp : a / PGSIZE ≠ s / PGSIZE := page_ne_of_not_mem (by rw [hP]; exact hs) (.inr (by
        rw [hP]
        omega))
      refine ⟨_, (hother₂ a (by omega) hp).trans hl, ?_, ?_⟩
      · exact leafPte_and_flag (k := 4) (by decide)
      · exact leafPte_and_flag (k := 2) (by decide)
    refine ⟨m₂, hW₂, ⟨_, hguard, clearU_user _⟩, hstack, ?_⟩
    -- `kexec` up to its string loop
    rw [kexecStack]
    dsimp only
    rw [← hs_def, ← hsz', hua, ok_bind]
    dsimp only
    rw [if_neg (by omega), show sz' - (USERSTACK + 1) * PGSIZE = s by omega, huc, ok_bind]
    refine ⟨fun h => by rw [h, ok_bind]; rfl, fun argc sp ustack' m₃ h => ?_⟩
    rw [h, ok_bind]
    dsimp only
    rw [← hsz']
    rcases pushUstack p pt (sz' - USERSTACK * PGSIZE) argc sp ustack' m₃ with _ | _ | ⟨sp', m₄⟩ <;>
      rfl
  · -- `uvmalloc` ran out of pages: `goto bad`
    left
    refine ⟨?_, ?_⟩
    · rw [kexecStack]
      dsimp only
      rw [← hs_def, ← hsz', hua, ok_bind]
      rfl
    · rw [PGROUNDUP_of_aligned (by rw [hP]; omega : sz' % PGSIZE = 0), hss, hP] at hfew
      rw [hU]
      omega

/-- The stack `kexec` builds for fewer than `MAXARG` strings each shorter than a page, in an image
`pagetable` that is well formed with nothing mapped on the `USERSTACK + 1` pages from
`PGROUNDUP(sz)`, below `TRAMPOLINE`. When the arguments do not fit, `kexec` fails; when they fit it
fails only for want of free pages. When it succeeds, with the new size `sz'` and
`stackbase = sz' - USERSTACK * PGSIZE`: the guard page at `sz' - (USERSTACK + 1) * PGSIZE` is
mapped without `PTE_U`; each string and its `NUL` are in the image's view at the 16-byte-aligned
address `argAddrs` gives, inside `[stackbase, sz')`; and `sp`, 16-byte aligned in `[stackbase, sz')`
below the strings, holds their addresses closed by `0`, one 8-byte word each. -/
theorem kexec_stack (p : Proc) (ustack : Nat → UInt8) {m : Machine} {pt sz : Nat}
    {argv : List CStr} (hW : Wf m pt)
    (htop : PGROUNDUP sz + (USERSTACK + 1) * PGSIZE ≤ TRAMPOLINE)
    (hnone : ∀ b, PGROUNDUP sz ≤ b → b < PGROUNDUP sz + (USERSTACK + 1) * PGSIZE →
      m.leaf pt b = none)
    (hargc : argv.length < MAXARG) (hlen : ∀ s ∈ argv, s.strlen < PGSIZE) :
    ∃ r, kexecStack p m pt sz argv ustack = .ok r ∧
      (¬ argsFit argv → r = none) ∧
      (argsFit argv → r = none → m.free.length < 3 * (USERSTACK + 1)) ∧
      ∀ argc sz' sp m', r = some (argc, sz', sp, m') →
        argc = argv.length ∧ sz' = PGROUNDUP sz + (USERSTACK + 1) * PGSIZE ∧
        (∃ v, m'.leaf pt (sz' - (USERSTACK + 1) * PGSIZE) = some v ∧ v &&& PTE_U = 0) ∧
        (∀ i (hi : i < argv.length),
          (argAddrs sz' argv).getD i 0 % 16 = 0 ∧
          sz' - USERSTACK * PGSIZE ≤ (argAddrs sz' argv).getD i 0 ∧
          (argAddrs sz' argv).getD i 0 + argv[i].strlen + 1 ≤ sz' ∧
          ∀ j, j ≤ argv[i].strlen →
            m'.view ⟨pt, sz'⟩ ((argAddrs sz' argv).getD i 0 + j) = some (argv[i].buf j)) ∧
        sp = sz' - argsRoom argv - roundup16 ((argc + 1) * 8) ∧ sp % 16 = 0 ∧
        sz' - USERSTACK * PGSIZE ≤ sp ∧ sp + (argc + 1) * 8 ≤ sz' - argsRoom argv ∧
        ∀ i, i ≤ argc →
          loadUser m' ⟨pt, sz'⟩ (sp + 8 * i) 8 = some ((argAddrs sz' argv ++ [0]).getD i 0) := by
  rcases kexecStack_guard p ustack argv hW htop hnone with ⟨hrun, hfew⟩ |
    ⟨m₂, hW₂, ⟨v, hguard, hvU⟩, hstack, hnil, hcons⟩
  · -- `uvmalloc` ran out of pages
    exact ⟨none, hrun, fun _ => rfl, fun _ _ => hfew, fun _ _ _ _ h => by cases h⟩
  have hP : PGSIZE = 4096 := rfl
  have hU : USERSTACK = 1 := rfl
  have hs := PGROUNDUP_aligned sz
  set s := PGROUNDUP sz with hs_def
  set sz' := s + (USERSTACK + 1) * PGSIZE with hsz'
  have hsz'v : sz' = s + 2 * 4096 := by rw [hsz', hU, hP]
  have hUP : USERSTACK * PGSIZE = 4096 := rfl
  have hTM := TRAMPOLINE_lt_MAXVA
  rw [hP] at hs
  have hsb : PGSIZE ≤ sz' - USERSTACK * PGSIZE := by omega
  have hal16 : sz' % 16 = 0 := by omega
  have hround : roundup16 ((0 + argv.length + 1) * 8) = roundup16 ((argv.length + 1) * 8) := by
    rw [Nat.zero_add]
  -- the strings
  obtain ⟨r₂, hr₂, hfail₂, hok₂⟩ := kexecArgLoop_run p ⟨pt, sz'⟩ hsb htop argv 0 sz' ustack m₂
    hW₂ hstack hal16 (by omega) (le_refl _) (by omega) hlen
  by_cases hroom : argsRoom argv ≤ USERSTACK * PGSIZE
  swap
  · -- the strings do not fit: `goto bad`
    obtain rfl := hfail₂ (by omega)
    refine ⟨none, hnil hr₂, fun _ => rfl, fun h => absurd ?_ hroom, fun _ _ _ _ h => by cases h⟩
    unfold argsFit at h
    omega
  obtain ⟨ustack', m₃, rfl, hW₃, hl₃, hview₃, hstr₃, -, hnew₃⟩ := hok₂ (by omega)
  have hstack₃ : ∀ a, sz' - USERSTACK * PGSIZE ≤ a → a < sz' - argsRoom argv →
      ∃ v, m₃.leaf pt a = some v ∧ v &&& PTE_U ≠ 0 ∧ v &&& PTE_W ≠ 0 := by
    intro a h1 h2
    rw [hl₃ a]
    exact hstack a h1 (by omega)
  have hal₃ : (sz' - argsRoom argv) % 16 = 0 := by
    have := argsRoom_mod argv
    omega
  -- the array of their addresses
  obtain ⟨r₃, hr₃, hfail₃, hok₃⟩ := pushUstack_run p ⟨pt, sz'⟩ ustack' hW₃ hstack₃ hal₃
    (by omega : 0 + argv.length < MAXARG) hsb (by omega) (by omega)
  have hrun := hcons _ _ _ _ hr₂
  rw [hr₃] at hrun
  by_cases hfit : argsFit argv
  swap
  · -- the array does not fit: `goto bad`
    have hlt : sz' - argsRoom argv - roundup16 ((0 + argv.length + 1) * 8) <
        sz' - USERSTACK * PGSIZE := by
      unfold argsFit at hfit
      omega
    rw [hfail₃ hlt] at hrun
    exact ⟨none, hrun, fun _ => rfl, fun h => absurd h hfit, fun _ _ _ _ h => by cases h⟩
  have hchk : sz' - USERSTACK * PGSIZE ≤
      sz' - argsRoom argv - roundup16 ((0 + argv.length + 1) * 8) := by
    unfold argsFit at hfit
    omega
  obtain ⟨m₄, rfl, hW₄, hl₄, hview₄⟩ := hok₃ hchk
  refine ⟨_, hrun, fun h => absurd hfit h, fun _ h => (by cases h), ?_⟩
  intro argc sz'' sp m' h
  simp only [Option.map_some, Option.some.injEq, Prod.mk.injEq] at h
  obtain ⟨rfl, rfl, rfl, rfl⟩ := h
  have hr := roundup16_ge ((0 + argv.length + 1) * 8)
  have hm := roundup16_mod ((0 + argv.length + 1) * 8)
  have hlen' : 0 + argv.length = (argAddrs sz' argv).length := by
    rw [argAddrs_length, Nat.zero_add]
  refine ⟨Nat.zero_add _, rfl, ⟨v, ?_, hvU⟩, fun i hi => ?_, rfl, by omega, hchk, by omega,
    fun i hi => loadUser_ustack ustack' (fun j hj => ?_) (fun k hk => ?_) i (by omega)⟩
  · -- the guard page, which neither copy touched
    rw [show sz' - (USERSTACK + 1) * PGSIZE = s by omega, hl₄, hl₃, hguard]
  · -- a string, which the array left alone
    obtain ⟨h1, h2, h3⟩ := argAddrs_slot sz' hal16 (by omega) i hi
    refine ⟨h1, by omega, h3, fun j hj => ?_⟩
    rw [hview₄ _ (by omega), if_neg (by omega)]
    exact hstr₃ i hi j hj
  · -- a byte of the array
    rw [← hlen'] at hj ⊢
    rw [hview₄ _ (by omega), if_pos (by omega), Nat.add_sub_cancel_left]
  · -- a word of the array: `ustack[k]`, which the string loop set
    rw [argAddrs_length] at hk
    rw [← hnew₃ k hk, Nat.zero_add]

/-- The argument string `"hi"`. -/
def hiArg : CStr := ⟨[104, 105], by decide⟩

/-- A string of 4090 `'a'`s: shorter than a page, but with its `NUL` it fills the stack page and
leaves no room for the pointer array. -/
def longArg : CStr := ⟨List.replicate 4090 97, fun h => absurd (List.mem_replicate.mp h).2 (by decide)⟩

theorem longArg_strlen : longArg.strlen = 4090 := List.length_replicate

/-- `exec("hi")` on a machine with the pages the stack needs builds the stack: `"hi"` at the top
of the stack page and the array below it. `exec` of `longArg` fails. -/
theorem kexec_stack_hi :
    Wf ampleMachine 0x87000000 ∧ PGROUNDUP PGSIZE + (USERSTACK + 1) * PGSIZE ≤ TRAMPOLINE ∧
    (∀ b, PGROUNDUP PGSIZE ≤ b → b < PGROUNDUP PGSIZE + (USERSTACK + 1) * PGSIZE →
      ampleMachine.leaf 0x87000000 b = none) ∧ [hiArg].length < MAXARG ∧
    (∀ s ∈ [hiArg], s.strlen < PGSIZE) ∧ [longArg].length < MAXARG ∧
    (∀ s ∈ [longArg], s.strlen < PGSIZE) ∧
    (∃ r, kexecStack ⟨0x87000000, PGSIZE⟩ ampleMachine 0x87000000 PGSIZE [hiArg] (fun _ => 0) =
        .ok r ∧ r.isSome ∧
      ∀ argc sz' sp m', r = some (argc, sz', sp, m') →
        argc = [hiArg].length ∧ sz' = PGROUNDUP PGSIZE + (USERSTACK + 1) * PGSIZE ∧
        (∃ v, m'.leaf 0x87000000 (sz' - (USERSTACK + 1) * PGSIZE) = some v ∧ v &&& PTE_U = 0) ∧
        (∀ i (hi : i < [hiArg].length),
          (argAddrs sz' [hiArg]).getD i 0 % 16 = 0 ∧
          sz' - USERSTACK * PGSIZE ≤ (argAddrs sz' [hiArg]).getD i 0 ∧
          (argAddrs sz' [hiArg]).getD i 0 + [hiArg][i].strlen + 1 ≤ sz' ∧
          ∀ j, j ≤ [hiArg][i].strlen →
            m'.view ⟨0x87000000, sz'⟩ ((argAddrs sz' [hiArg]).getD i 0 + j) =
              some ([hiArg][i].buf j)) ∧
        sp = sz' - argsRoom [hiArg] - roundup16 ((argc + 1) * 8) ∧ sp % 16 = 0 ∧
        sz' - USERSTACK * PGSIZE ≤ sp ∧ sp + (argc + 1) * 8 ≤ sz' - argsRoom [hiArg] ∧
        ∀ i, i ≤ argc → loadUser m' ⟨0x87000000, sz'⟩ (sp + 8 * i) 8 =
          some ((argAddrs sz' [hiArg] ++ [0]).getD i 0)) ∧
    kexecStack ⟨0x87000000, PGSIZE⟩ ampleMachine 0x87000000 PGSIZE [longArg] (fun _ => 0) =
      .ok none := by
  have hnone : ∀ b, PGROUNDUP PGSIZE ≤ b → b < PGROUNDUP PGSIZE + (USERSTACK + 1) * PGSIZE →
      ampleMachine.leaf 0x87000000 b = none :=
    fun b _ _ => Machine.leaf_of_root_empty freshMachine_root_empty b
  have hlen : ∀ s ∈ [hiArg], s.strlen < PGSIZE := by decide
  have hlong : ∀ s ∈ [longArg], s.strlen < PGSIZE := by
    simp [longArg_strlen, PGSIZE]
  have hfit : argsFit [hiArg] := by decide
  have hnofit : ¬ argsFit [longArg] := by
    simp [argsFit, argsRoom, longArg_strlen, roundup16, USERSTACK, PGSIZE]
  obtain ⟨r, hr, -, hmem, hstack⟩ :=
    kexec_stack ⟨0x87000000, PGSIZE⟩ (fun _ => 0) ampleMachine_wf (by decide) hnone (by decide) hlen
  obtain ⟨r', hr', hnone', -, -⟩ :=
    kexec_stack ⟨0x87000000, PGSIZE⟩ (fun _ => 0) ampleMachine_wf (by decide) hnone (by decide) hlong
  -- six free pages are enough: the stack is built
  have hsome : r.isSome := by
    cases r with
    | none => exact absurd (hmem hfit rfl) (by decide)
    | some _ => rfl
  refine ⟨ampleMachine_wf, by decide, hnone, by decide, hlen, by decide, hlong,
    ⟨r, hr, hsome, hstack⟩, ?_⟩
  rw [hr', hnone' hnofit]

end Xv6.Exec
