import Mathlib

/-!
# Xv6.Lib.Bytes — bits of bytes, and words in byte arrays

A byte array is a function from offsets to `UInt8`; only the offsets below its length are ever
read. Two views of one are used by code that keeps a bitmap or a table of numbers in raw storage:
bit `k` of a byte, set with `x ||| 1 <<< k` and cleared with `x &&& ~~~(1 <<< k)`, and the
little-endian 32-bit word at index `j`, the bytes `4 * j` to `4 * j + 3`. Each operation
changes the bit or word it names and no other; `copyBytes` is `memmove` into an array.

Nothing here refers to a particular program.
-/

namespace Xv6.Lib

/-! ## Bits of a byte -/

/-- `1 << k` for a bit index of a byte. -/
theorem one_shiftLeft_toNat {k : Nat} (hk : k < 8) :
    ((1 : UInt8) <<< k.toUInt8).toNat = 2 ^ k := by
  interval_cases k <;> rfl

/-- `x | (1 << k)` sets bit `k` and keeps the others. -/
theorem testBit_or_bit (x : UInt8) {k : Nat} (hk : k < 8) (j : Nat) :
    (x ||| (1 : UInt8) <<< k.toUInt8).toNat.testBit j = (x.toNat.testBit j || decide (k = j)) := by
  rw [UInt8.toNat_or, Nat.testBit_or, one_shiftLeft_toNat hk, Nat.testBit_two_pow]

/-- Below the top of a byte, `255 - 2 ^ k` has every bit but `k`. -/
theorem testBit_not_two_pow {k j : Nat} (hk : k < 8) (hj : j < 8) :
    (2 ^ 8 - 1 - 2 ^ k).testBit j = !decide (k = j) := by
  interval_cases k <;> interval_cases j <;> rfl

/-- `x & ~(1 << k)` clears bit `k` and keeps the others. -/
theorem testBit_and_not_bit (x : UInt8) {k j : Nat} (hk : k < 8) (hj : j < 8) :
    (x &&& ~~~((1 : UInt8) <<< k.toUInt8)).toNat.testBit j =
      (x.toNat.testBit j && !decide (k = j)) := by
  rw [UInt8.toNat_and, Nat.testBit_and, UInt8.toNat_not, one_shiftLeft_toNat hk]
  exact congrArg _ (testBit_not_two_pow hk hj)

/-- `(x & (1 << k)) == 0` tests bit `k`. -/
theorem and_bit_eq_zero_iff (x : UInt8) {k : Nat} (hk : k < 8) :
    (x &&& (1 : UInt8) <<< k.toUInt8) = 0 ↔ x.toNat.testBit k = false := by
  rw [← UInt8.toNat_inj, UInt8.toNat_and, one_shiftLeft_toNat hk, Nat.and_two_pow]
  cases x.toNat.testBit k <;> simp

/-! ## Little-endian words of a byte array -/

/-- The 32-bit word at index `j`, least significant byte first: `((uint*)a)[j]`. -/
def getWord (a : Nat → UInt8) (j : Nat) : Nat :=
  (a (4 * j)).toNat + (a (4 * j + 1)).toNat * 2 ^ 8 + (a (4 * j + 2)).toNat * 2 ^ 16 +
    (a (4 * j + 3)).toNat * 2 ^ 24

/-- `((uint*)a)[j] = x`. -/
def setWord (a : Nat → UInt8) (j x : Nat) : Nat → UInt8 := fun i =>
  if i = 4 * j then UInt8.ofNat x
  else if i = 4 * j + 1 then UInt8.ofNat (x / 2 ^ 8)
  else if i = 4 * j + 2 then UInt8.ofNat (x / 2 ^ 16)
  else if i = 4 * j + 3 then UInt8.ofNat (x / 2 ^ 24)
  else a i

@[simp] theorem getWord_zero (j : Nat) : getWord (fun _ => 0) j = 0 := by
  simp [getWord]

theorem getWord_setWord_self (a : Nat → UInt8) (j : Nat) {x : Nat} (hx : x < 2 ^ 32) :
    getWord (setWord a j x) j = x := by
  simp only [getWord, setWord, if_true, Nat.add_eq_left, Nat.add_right_cancel_iff,
    OfNat.ofNat_ne_zero, if_false, UInt8.toNat_ofNat', Nat.reduceEqDiff]
  omega

theorem getWord_setWord_of_ne (a : Nat → UInt8) {j j' : Nat} (x : Nat) (h : j' ≠ j) :
    getWord (setWord a j x) j' = getWord a j' := by
  unfold getWord setWord
  -- the four bytes of word `j'` lie outside those of word `j`
  have h0 : 4 * j' ≠ 4 * j ∧ 4 * j' ≠ 4 * j + 1 ∧ 4 * j' ≠ 4 * j + 2 ∧ 4 * j' ≠ 4 * j + 3 := by
    omega
  have h1 : 4 * j' + 1 ≠ 4 * j ∧ 4 * j' + 1 ≠ 4 * j + 1 ∧ 4 * j' + 1 ≠ 4 * j + 2 ∧
      4 * j' + 1 ≠ 4 * j + 3 := by omega
  have h2 : 4 * j' + 2 ≠ 4 * j ∧ 4 * j' + 2 ≠ 4 * j + 1 ∧ 4 * j' + 2 ≠ 4 * j + 2 ∧
      4 * j' + 2 ≠ 4 * j + 3 := by omega
  have h3 : 4 * j' + 3 ≠ 4 * j ∧ 4 * j' + 3 ≠ 4 * j + 1 ∧ 4 * j' + 3 ≠ 4 * j + 2 ∧
      4 * j' + 3 ≠ 4 * j + 3 := by omega
  simp only [h0, h1, h2, h3, if_false]

/-! ## Copying bytes -/

/-- `memmove(a + pos, src, n)`: bytes `pos` to `pos + n - 1` of `a` become `src 0` to
`src (n - 1)`. -/
def copyBytes (a : Nat → UInt8) (pos : Nat) (src : Nat → UInt8) (n : Nat) : Nat → UInt8 :=
  fun i => if pos ≤ i ∧ i < pos + n then src (i - pos) else a i

theorem copyBytes_of_lt (a : Nat → UInt8) {pos i : Nat} (src : Nat → UInt8) (n : Nat)
    (h : i < pos) : copyBytes a pos src n i = a i := by
  simp [copyBytes, Nat.not_le.mpr h]

theorem copyBytes_of_ge (a : Nat → UInt8) {pos i : Nat} (src : Nat → UInt8) {n : Nat}
    (h : pos + n ≤ i) : copyBytes a pos src n i = a i := by
  simp only [copyBytes]
  rw [if_neg (by omega)]

theorem copyBytes_of_mem (a : Nat → UInt8) {pos i : Nat} (src : Nat → UInt8) {n : Nat}
    (h1 : pos ≤ i) (h2 : i < pos + n) : copyBytes a pos src n i = src (i - pos) := by
  simp [copyBytes, h1, h2]

end Xv6.Lib
