import Xv6.Lib.Bytes

/-!
# Xv6.Lib.Word — little-endian numbers of any width in a byte memory

A memory is a function from addresses to bytes. `loadLE a addr n` is the number held in the
`n` bytes from `addr`, least significant first, as a load of an `n`-byte integer reads it;
`storeLE a addr x n` is the memory after the matching store of `x`, which keeps the low `8 * n`
bits. A load reads its bytes alone (`loadLE_congr`, and `loadLE_congr_shift` for bytes moved elsewhere), so a store or a copy elsewhere leaves it
(`loadLE_storeLE_of_disjoint`, `loadLE_copyBytes_of_disjoint`), and a load after a store at the
same place gives back what was stored (`loadLE_storeLE`).

Nothing here refers to a particular program.
-/

namespace Xv6.Lib

/-- The number held little-endian in the `n` bytes of `a` from `addr`. -/
def loadLE (a : Nat → UInt8) (addr : Nat) : Nat → Nat
  | 0 => 0
  | n + 1 => (a addr).toNat + 2 ^ 8 * loadLE a (addr + 1) n

/-- `a` after the low `n` bytes of `x` are stored little-endian from `addr`. -/
def storeLE (a : Nat → UInt8) (addr x n : Nat) : Nat → UInt8 := fun i =>
  if addr ≤ i ∧ i < addr + n then UInt8.ofNat (x / 2 ^ (8 * (i - addr))) else a i

variable {a b : Nat → UInt8} {addr addr' x n n' i : Nat}

theorem loadLE_lt (a : Nat → UInt8) (addr n : Nat) : loadLE a addr n < 2 ^ (8 * n) := by
  induction n generalizing addr with
  | zero => simp [loadLE]
  | succ n ih =>
    have hb := (a addr).toNat_lt
    have hr := ih (addr + 1)
    rw [loadLE, Nat.mul_succ, Nat.pow_add]
    omega

/-- A load reads its `n` bytes and nothing else. -/
theorem loadLE_congr (h : ∀ i, addr ≤ i → i < addr + n → a i = b i) :
    loadLE a addr n = loadLE b addr n := by
  induction n generalizing addr with
  | zero => rfl
  | succ n ih =>
    have hhead : a addr = b addr := h addr (Nat.le_refl _) (by omega)
    have htail : loadLE a (addr + 1) n = loadLE b (addr + 1) n :=
      ih fun i h1 h2 => h i (by omega) (by omega)
    rw [loadLE, loadLE, hhead, htail]

/-- Two loads read the same number when their bytes agree one by one, wherever they start. -/
theorem loadLE_congr_shift (h : ∀ i, i < n → a (addr + i) = b (addr' + i)) :
    loadLE a addr n = loadLE b addr' n := by
  induction n generalizing addr addr' with
  | zero => rfl
  | succ n ih =>
    have hhead : a addr = b addr' := h 0 (by omega)
    have htail : loadLE a (addr + 1) n = loadLE b (addr' + 1) n := by
      apply ih
      intro i hi
      have e : addr + 1 + i = addr + (i + 1) := by omega
      have e' : addr' + 1 + i = addr' + (i + 1) := by omega
      rw [e, e']
      exact h (i + 1) (by omega)
    rw [loadLE, loadLE, hhead, htail]

/-- Bytes that are all zero hold zero. -/
theorem loadLE_eq_zero (h : ∀ i, addr ≤ i → i < addr + n → a i = 0) : loadLE a addr n = 0 := by
  induction n generalizing addr with
  | zero => rfl
  | succ n ih =>
    rw [loadLE, h addr (Nat.le_refl _) (by omega), ih fun i h1 h2 => h i (by omega) (by omega)]
    rfl

theorem storeLE_of_not_mem (h : i < addr ∨ addr + n ≤ i) : storeLE a addr x n i = a i := by
  simp only [storeLE]
  rw [if_neg (by omega)]

theorem storeLE_of_mem (h1 : addr ≤ i) (h2 : i < addr + n) :
    storeLE a addr x n i = UInt8.ofNat (x / 2 ^ (8 * (i - addr))) := by
  simp only [storeLE]
  rw [if_pos ⟨h1, h2⟩]

/-- A load after a store at the same place gives back the low `8 * n` bits. -/
theorem loadLE_storeLE (a : Nat → UInt8) (addr x n : Nat) :
    loadLE (storeLE a addr x n) addr n = x % 2 ^ (8 * n) := by
  induction n generalizing addr x with
  | zero => simp [loadLE, Nat.mod_one]
  | succ n ih =>
    -- the bytes after the first are the store of `x / 2 ^ 8` one place on
    have htail : loadLE (storeLE a addr x (n + 1)) (addr + 1) n =
        loadLE (storeLE a (addr + 1) (x / 2 ^ 8) n) (addr + 1) n := by
      apply loadLE_congr
      intro i h1 h2
      rw [storeLE_of_mem (by omega) (by omega), storeLE_of_mem h1 h2, Nat.div_div_eq_div_mul,
        ← Nat.pow_add]
      congr 3
      omega
    have hhead : (storeLE a addr x (n + 1) addr).toNat = x % 2 ^ 8 := by
      rw [storeLE_of_mem (Nat.le_refl _) (by omega), Nat.sub_self, Nat.mul_zero, Nat.pow_zero,
        Nat.div_one, UInt8.toNat_ofNat']
    rw [loadLE, hhead, htail, ih, Nat.mul_succ, Nat.add_comm (8 * n) 8, Nat.pow_add, Nat.mod_mul]

/-- A load of bytes that a store does not touch is unchanged by it. -/
theorem loadLE_storeLE_of_disjoint (h : addr' + n' ≤ addr ∨ addr + n ≤ addr') :
    loadLE (storeLE a addr x n) addr' n' = loadLE a addr' n' :=
  loadLE_congr fun _ h1 h2 => storeLE_of_not_mem (by omega)

/-- A load of bytes that a copy does not touch is unchanged by it. -/
theorem loadLE_copyBytes_of_disjoint {pos len : Nat} (src : Nat → UInt8)
    (h : addr' + n' ≤ pos ∨ pos + len ≤ addr') :
    loadLE (copyBytes a pos src len) addr' n' = loadLE a addr' n' :=
  loadLE_congr fun i h1 h2 => by
    rcases h with h | h
    · exact copyBytes_of_lt a src len (by omega)
    · exact copyBytes_of_ge a src (by omega)

end Xv6.Lib
