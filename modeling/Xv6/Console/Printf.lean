import Xv6.Lib.Loop

/-!
# Xv6.Console.Printf — `printint` of `kernel/printf.c` and `user/printf.c`

Both files print an integer the same way. The argument is a `long long xx`; when it is signed
and negative, `x = -xx` is its magnitude as an `unsigned long long` (for `-2^63` the negation
wraps to `2^63`), and otherwise `x = xx` reads it as unsigned. The digits go into `char buf[20]`
least significant first, by `buf[i++] = digits[x % base]` until `x /= base` reaches zero, then a
`'-'` if negative, and the buffer is printed backwards. The two copies differ in their digit
table (lower-case hex letters in the kernel, upper-case in user space) and in where the
characters go (`consputc`, `putc(fd, ·)`); the output is modelled as the list of characters
printed. The kernel writes its test as `if(sign && (sign = (xx < 0)))`, the user copy with a
separate `neg`: they decide the same.

The buffer is a list of the characters written so far, `i` its length. A write with `i` at 20
or beyond would fall outside `buf`; the model returns the error `"buf overflow"` there, so a
result `.ok` says that no write went past `buf[19]`.

`printintWith_eq` says what the loop prints for every base above one: the standard numeral of
`Nat.toDigits` behind a `-` for a negative signed argument, exactly when that fits in 20
characters. For base 10 and 16 it always fits (`standard_length_le`), the longest cases being
`2^64 - 1` and `-2^63` in base 10, with 20 characters each.
-/

namespace Xv6.Printf

open Xv6.Lib

/-! ## The digit loop -/

/-- `do { buf[i++] = digits[x % base]; } while((x /= base) != 0);` on `char buf[20]`, with
`room = 20 - i` places left; a write with no room left is out of bounds. The table is read
with its terminating `NUL` past the digits. -/
def digitLoop (digits : List Char) (base : Nat) : (room x : Nat) → List Char →
    Except String (List Char)
  | 0, _, _ => .error "buf overflow"
  | room + 1, x, buf =>
    let buf := buf ++ [digits.getD (x % base) '\x00']
    if x / base ≠ 0 then digitLoop digits base room (x / base) buf else .ok buf

/-- `printint(xx, base, sign)` with the digit table `digits`: the characters it prints. -/
def printintWith (digits : List Char) (xx : Int64) (base : Nat) (sgn : Bool) :
    Except String (List Char) := do
  let neg := sgn && decide (xx < 0)
  let x : UInt64 := if neg then (-xx).toUInt64 else xx.toUInt64
  let buf ← digitLoop digits base 20 x.toNat []
  let buf ← if neg then (if buf.length < 20 then pure (buf ++ ['-']) else throw "buf overflow")
    else pure buf
  -- `while(--i >= 0) consputc(buf[i]);`
  pure buf.reverse

namespace Kernel

/-- `digits` of `kernel/printf.c`. -/
def digits : List Char := "0123456789abcdef".toList

/-- `printint` of `kernel/printf.c`: the characters it hands to `consputc`. -/
def printint (xx : Int64) (base : Nat) (sign : Bool) : Except String (List Char) :=
  printintWith digits xx base sign

end Kernel

namespace User

/-- `digits` of `user/printf.c`. -/
def digits : List Char := "0123456789ABCDEF".toList

/-- `printint` of `user/printf.c`: the characters it writes to `fd`. -/
def printint (xx : Int64) (base : Nat) (sgn : Bool) : Except String (List Char) :=
  printintWith digits xx base sgn

end User

/-! ## What it should print -/

/-- The standard numeral that `printint` should print for `xx`: a `-` and the magnitude when
`sgn` is set and `xx` is negative, and otherwise `xx` read as unsigned, each in core's
`Nat.toDigits` with every digit passed through `φ` (the case of the hex letters). -/
def standard (φ : Char → Char) (xx : Int64) (base : Nat) (sgn : Bool) : List Char :=
  if sgn ∧ xx.toInt < 0 then '-' :: (Nat.toDigits base xx.toInt.natAbs).map φ
  else (Nat.toDigits base xx.toUInt64.toNat).map φ

/-! ## The loop prints the numeral -/

/-- The numeral of `x` is that of `x / base` followed by the last digit, or that digit alone. -/
theorem toDigits_split {base : Nat} (hb : 1 < base) (x : Nat) :
    Nat.toDigits base x = if x / base = 0 then [Nat.digitChar (x % base)]
      else Nat.toDigits base (x / base) ++ [Nat.digitChar (x % base)] := by
  have hmod : x % base < base := Nat.mod_lt x (by omega)
  by_cases hq : x / base = 0
  · have hx : x < base := by
      by_contra hc
      have := Nat.div_pos (Nat.le_of_not_lt hc) (by omega)
      omega
    rw [if_pos hq, Nat.toDigits_of_lt_base hx, Nat.mod_eq_of_lt hx]
  · rw [if_neg hq, ← Nat.toDigits_of_lt_base hmod,
      Nat.toDigits_append_toDigits hb (Nat.pos_of_ne_zero hq) hmod, Nat.div_add_mod]

theorem toDigits_length_pos (base x : Nat) (hb : 1 < base) : 0 < (Nat.toDigits base x).length := by
  rw [toDigits_split hb]
  split_ifs <;> simp

section Loop

variable {digits : List Char} {base : Nat} {φ : Char → Char}

/-- The loop appends the numeral of `x` backwards, through the table, when it fits in the room
left, and otherwise writes out of bounds. The table must hold `φ` of each digit. -/
theorem digitLoop_eq (hb : 1 < base)
    (htab : ∀ d < base, digits.getD d '\x00' = φ (Nat.digitChar d)) :
    ∀ (room x : Nat) (buf : List Char), digitLoop digits base room x buf =
      if (Nat.toDigits base x).length ≤ room then
        .ok (buf ++ ((Nat.toDigits base x).map φ).reverse)
      else .error "buf overflow" := by
  intro room
  -- induction on the room left, one digit a turn
  induction room with
  | zero =>
    intro x buf
    rw [digitLoop, if_neg (by have := toDigits_length_pos base x hb; omega)]
  | succ room ih =>
    intro x buf
    have hdig : digits.getD (x % base) '\x00' = φ (Nat.digitChar (x % base)) :=
      htab _ (Nat.mod_lt x (by omega))
    rw [digitLoop, hdig, toDigits_split hb x]
    by_cases hq : x / base = 0
    · -- the last digit
      rw [if_neg (not_not.mpr hq), if_pos hq, if_pos (by simp)]
      simp
    · rw [if_pos hq, if_neg hq, ih (x / base)]
      simp only [List.length_append, List.length_singleton, List.map_append, List.map_cons,
        List.map_nil, List.reverse_append, List.reverse_cons, List.reverse_nil, List.nil_append,
        List.append_assoc, List.singleton_append]
      by_cases hfit : (Nat.toDigits base (x / base)).length ≤ room
      · rw [if_pos hfit, if_pos (by omega)]
      · rw [if_neg hfit, if_neg (by omega)]

end Loop

/-! ## The two's-complement cases -/

/-- `xx < 0` in `long long` is the sign of its value. -/
theorem neg_iff (xx : Int64) : xx < 0 ↔ xx.toInt < 0 := by
  rw [Int64.lt_iff_toInt_lt]
  rfl

/-- `-xx` of a negative `long long`, read as unsigned, is its magnitude; for `-2^63` the
negation wraps to itself, which reads as `2^63`. -/
theorem toNat_neg_toUInt64 {xx : Int64} (h : xx.toInt < 0) :
    (-xx).toUInt64.toNat = xx.toInt.natAbs := by
  have hc := BitVec.toInt_eq_toNat_cond xx.toBitVec
  rw [Int64.toInt_toBitVec] at hc
  have hlt := xx.toBitVec.isLt
  show (-xx.toBitVec).toNat = _
  rw [BitVec.toNat_neg]
  split_ifs at hc with h2
  · omega
  · omega

/-- The magnitude of a `long long` is at most `2^63`. -/
theorem natAbs_toInt_le (xx : Int64) : xx.toInt.natAbs ≤ 2 ^ 63 := by
  have h1 := Int64.le_toInt xx
  have h2 := Int64.toInt_lt xx
  omega

/-- `printint` prints the standard numeral when it fits in `buf`, and writes out of bounds
otherwise, for every base above one whose digits the table holds through `φ`. -/
theorem printintWith_eq {digits : List Char} {base : Nat} {φ : Char → Char} (hb : 1 < base)
    (htab : ∀ d < base, digits.getD d '\x00' = φ (Nat.digitChar d)) (xx : Int64) (sgn : Bool) :
    printintWith digits xx base sgn =
      if (standard φ xx base sgn).length ≤ 20 then .ok (standard φ xx base sgn)
      else .error "buf overflow" := by
  unfold printintWith standard
  by_cases hneg : sgn ∧ xx.toInt < 0
  · -- signed and negative: the digits of the magnitude, then the `-`
    have hd : (sgn && decide (xx < 0)) = true := by
      simp [hneg.1, (neg_iff xx).mpr hneg.2]
    simp only [hd, if_true, if_pos hneg, toNat_neg_toUInt64 hneg.2, digitLoop_eq hb htab,
      List.nil_append, List.length_cons, List.length_map]
    by_cases hfit : (Nat.toDigits base xx.toInt.natAbs).length ≤ 19
    · rw [if_pos (by omega), if_pos (by omega), ok_bind, if_pos (by simp; omega)]
      simp
      rfl
    · by_cases h20 : (Nat.toDigits base xx.toInt.natAbs).length ≤ 20
      · rw [if_pos h20, if_neg (by omega), ok_bind, if_neg (by simp; omega)]
        rfl
      · rw [if_neg h20, if_neg (by omega)]
        rfl
  · have hd : (sgn && decide (xx < 0)) = false := by
      by_cases hs : sgn
      · simp [hs, (neg_iff xx).not.mpr (fun h => hneg ⟨hs, h⟩)]
      · simp [hs]
    simp only [hd, if_neg hneg, Bool.false_eq_true, if_false, digitLoop_eq hb htab,
      List.nil_append, List.length_map]
    by_cases hfit : (Nat.toDigits base xx.toUInt64.toNat).length ≤ 20
    · rw [if_pos hfit, if_pos hfit, ok_bind]
      simp
      rfl
    · rw [if_neg hfit, if_neg hfit]
      rfl

/-! ## Base 10 and 16 -/

/-- The kernel's table holds the digits of `Nat.digitChar`. -/
theorem Kernel.digits_getD : ∀ d < 16, Kernel.digits.getD d '\x00' = Nat.digitChar d := by
  decide

/-- The user table holds them in upper case. -/
theorem User.digits_getD : ∀ d < 16, User.digits.getD d '\x00' = (Nat.digitChar d).toUpper := by
  decide

/-- In base 10 and 16 the numeral always fits in `buf`: a magnitude is at most `2^63`, which
has 19 decimal digits, and an unsigned value is below `2^64`, which has 20. -/
theorem standard_length_le (φ : Char → Char) (xx : Int64) {base : Nat}
    (hbase : base = 10 ∨ base = 16) (sgn : Bool) : (standard φ xx base sgn).length ≤ 20 := by
  unfold standard
  split_ifs
  · have hmag : xx.toInt.natAbs < base ^ 19 := by
      have := natAbs_toInt_le xx
      rcases hbase with rfl | rfl <;> omega
    have := Nat.toDigits_length base _ 19 (by omega) hmag
    simp only [List.length_cons, List.length_map]
    omega
  · have hval : xx.toUInt64.toNat < base ^ 20 := by
      have := xx.toUInt64.toNat_lt
      rcases hbase with rfl | rfl <;> omega
    simpa using Nat.toDigits_length base _ 20 (by omega) hval

/-- `printint` in base 10 or 16 prints the standard numeral of its argument, signed or
unsigned, in lower-case hex in the kernel and upper-case in user space, and never writes past
`buf[19]`. -/
theorem printint_standard (xx : Int64) (base : Nat) (hbase : base = 10 ∨ base = 16) (sgn : Bool) :
    Kernel.printint xx base sgn = .ok (standard id xx base sgn) ∧
      User.printint xx base sgn = .ok (standard Char.toUpper xx base sgn) := by
  have hb : 1 < base := by omega
  have hle : base ≤ 16 := by omega
  constructor
  · rw [Kernel.printint,
      printintWith_eq (φ := id) hb (fun d hd => Kernel.digits_getD d (by omega)),
      if_pos (standard_length_le id xx hbase sgn)]
  · rw [User.printint, printintWith_eq hb (fun d hd => User.digits_getD d (by omega)),
      if_pos (standard_length_le Char.toUpper xx hbase sgn)]

theorem printint_standard_min :
    Kernel.printint Int64.minValue 10 true = .ok (standard id Int64.minValue 10 true) ∧
      User.printint Int64.minValue 10 true = .ok (standard Char.toUpper Int64.minValue 10 true) :=
  printint_standard Int64.minValue 10 (.inl rfl) true

/-- The two longest outputs fill the buffer. -/
example : (standard id Int64.minValue 10 true).length = 20 ∧
    (standard id (-1) 10 false).length = 20 := by
  decide

end Xv6.Printf
