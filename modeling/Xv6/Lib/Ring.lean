import Mathlib

/-!
# Xv6.Lib.Ring — a ring of cells behind free-running counters

A ring of `cap` cells is read and written through counters that only ever count up, each
naming the cell `k % cap`. The cells from counter `start` on, `len` of them, are the ring's
contents (`ringView`). Storing at `start + len` appends to the view when `len < cap`, and
taking at `start` removes its head.

When the counters are machine words they wrap at `2 ^ 32`; because `cap` divides `2 ^ 32`, the
wrapped counter names the same cell (`ringView_mod`), and the distance `tail - head` computed in
the word is the length of the view (`dist_*`).
-/

namespace Xv6.Lib

variable {α : Type*} {cap : Nat} [NeZero cap]

/-! ## Cells and views -/

/-- The cell a counter `k` names. -/
def slot (cap : Nat) [NeZero cap] (k : Nat) : Fin cap :=
  ⟨k % cap, Nat.mod_lt _ (Nat.pos_of_neZero cap)⟩

/-- The `len` cells from counter `start` on, oldest first. -/
def ringView (data : Fin cap → α) (start : Nat) : Nat → List α
  | 0 => []
  | len + 1 => ringView data start len ++ [data (slot cap (start + len))]

@[simp] theorem ringView_zero (data : Fin cap → α) (start : Nat) : ringView data start 0 = [] :=
  rfl

@[simp] theorem ringView_length (data : Fin cap → α) (start len : Nat) :
    (ringView data start len).length = len := by
  induction len with
  | zero => rfl
  | succ len ih => simp [ringView, ih]

theorem slot_eq_iff {j k : Nat} : slot cap j = slot cap k ↔ j % cap = k % cap := by
  simp [slot, Fin.ext_iff]

/-- Taking at `start` removes the head of the view. -/
theorem ringView_succ_cons (data : Fin cap → α) (start len : Nat) :
    ringView data start (len + 1) = data (slot cap start) :: ringView data (start + 1) len := by
  induction len with
  | zero => rfl
  | succ len ih =>
    rw [ringView, ih, ringView, List.cons_append, show start + 1 + len = start + (len + 1) by omega]

/-- A view depends only on the cells it covers. -/
theorem ringView_congr {data data' : Fin cap → α} {start start' len : Nat}
    (h : ∀ i < len, data' (slot cap (start' + i)) = data (slot cap (start + i))) :
    ringView data' start' len = ringView data start len := by
  induction len with
  | zero => rfl
  | succ len ih =>
    rw [ringView, ringView, ih fun i hi => h i (by omega), h len (by omega)]

/-- Two counters less than `cap` apart name different cells. -/
theorem slot_add_ne {start i k : Nat} (hik : i < k) (hk : k < cap) :
    slot cap (start + i) ≠ slot cap (start + k) := by
  rw [Ne, slot_eq_iff]
  intro hmod
  have hd : cap ∣ (start + k) - (start + i) :=
    Nat.dvd_of_mod_eq_zero (Nat.sub_mod_eq_zero_of_mod_eq hmod.symm)
  have hzero : (start + k) - (start + i) = 0 := Nat.eq_zero_of_dvd_of_lt hd (by omega)
  omega

/-- Storing at `start + len` appends to a view that is not full. -/
theorem ringView_push (data : Fin cap → α) (start len : Nat) (hlen : len < cap) (x : α) :
    ringView (Function.update data (slot cap (start + len)) x) start (len + 1) =
      ringView data start len ++ [x] := by
  rw [ringView, Function.update_self]
  congr 1
  apply ringView_congr
  intro i hi
  exact Function.update_of_ne (slot_add_ne hi hlen) _ _

/-- Storing past the end of the view, less than `cap` ahead of `start`, leaves it alone. -/
theorem ringView_update_of_le (data : Fin cap → α) (start len k : Nat) (hk : len ≤ k)
    (hkcap : k < cap) (x : α) :
    ringView (Function.update data (slot cap (start + k)) x) start len =
      ringView data start len := by
  apply ringView_congr
  intro i hi
  exact Function.update_of_ne (slot_add_ne (Nat.lt_of_lt_of_le hi hk) hkcap) _ _

/-- A view splits at any length. -/
theorem ringView_append (data : Fin cap → α) (start m n : Nat) :
    ringView data start (m + n) = ringView data start m ++ ringView data (start + m) n := by
  induction n with
  | zero => rw [Nat.add_zero, ringView_zero, List.append_nil]
  | succ n ih =>
    rw [← Nat.add_assoc, ringView, ih, ringView, List.append_assoc, Nat.add_assoc]

/-- A counter kept modulo a multiple of `cap` names the same cells. -/
theorem ringView_mod (data : Fin cap → α) {M : Nat} (hM : cap ∣ M) (start len : Nat) :
    ringView data (start % M) len = ringView data start len := by
  apply ringView_congr
  intro i _
  rw [slot_eq_iff.mpr]
  rw [Nat.add_mod, Nat.mod_mod_of_dvd _ hM, ← Nat.add_mod]

/-! ## Counters in a 32-bit word -/

/-- `head` plus the distance `tail - head` computed in the word is `tail`. -/
theorem word_add_dist (a b : UInt32) : (a.toNat + (b - a).toNat) % 2 ^ 32 = b.toNat := by
  have ha := a.toNat_lt_size
  have hb := b.toNat_lt_size
  rw [UInt32.toNat_sub]
  change _ < 2 ^ 32 at ha hb
  omega

theorem word_dist_eq_zero {a b : UInt32} : (b - a).toNat = 0 ↔ a = b := by
  have ha := a.toNat_lt_size
  have hb := b.toNat_lt_size
  change _ < 2 ^ 32 at ha hb
  rw [UInt32.toNat_sub, ← UInt32.toNat_inj]
  omega

/-- Moving `tail` forward lengthens the distance by one, short of a full turn. -/
theorem word_dist_succ {a b : UInt32} (h : (b - a).toNat + 1 < 2 ^ 32) :
    (b + 1 - a).toNat = (b - a).toNat + 1 := by
  have ha := a.toNat_lt_size
  have hb := b.toNat_lt_size
  change _ < 2 ^ 32 at ha hb
  rw [UInt32.toNat_sub] at h
  rw [UInt32.toNat_sub, UInt32.toNat_sub, UInt32.toNat_add]
  change (2 ^ 32 - a.toNat + (b.toNat + 1) % 2 ^ 32) % 2 ^ 32 = _
  omega

/-- Moving `head` forward shortens a nonzero distance by one. -/
theorem word_dist_pred {a b : UInt32} (h : a ≠ b) :
    (b - (a + 1)).toNat = (b - a).toNat - 1 := by
  have ha := a.toNat_lt_size
  have hb := b.toNat_lt_size
  change _ < 2 ^ 32 at ha hb
  have hne : a.toNat ≠ b.toNat := fun he => h (UInt32.toNat_inj.mp he)
  rw [UInt32.toNat_sub, UInt32.toNat_sub, UInt32.toNat_add]
  change (2 ^ 32 - (a.toNat + 1) % 2 ^ 32 + b.toNat) % 2 ^ 32 = _
  omega

/-- `tail = head + k` in the word exactly when the distance is `k`. -/
theorem word_eq_add_iff {a b k : UInt32} : b = a + k ↔ (b - a).toNat = k.toNat := by
  have ha := a.toNat_lt_size
  have hb := b.toNat_lt_size
  have hk := k.toNat_lt_size
  change _ < 2 ^ 32 at ha hb hk
  rw [← UInt32.toNat_inj, UInt32.toNat_add, UInt32.toNat_sub]
  omega

/-- A word counter names the cell its value names, in a ring whose size divides `2 ^ 32`. -/
theorem ringView_word_succ (data : Fin cap → α) (hcap : cap ∣ 2 ^ 32) (a : UInt32) (len : Nat) :
    ringView data (a + 1).toNat len = ringView data (a.toNat + 1) len := by
  rw [UInt32.toNat_add]
  exact ringView_mod data hcap _ len

/-- The cell after the view of a word-counted ring is the one `tail` names. -/
theorem slot_word_tail (hcap : cap ∣ 2 ^ 32) (a b : UInt32) :
    slot cap (a.toNat + (b - a).toNat) = slot cap b.toNat := by
  rw [slot_eq_iff, ← Nat.mod_mod_of_dvd (a.toNat + (b - a).toNat) hcap, word_add_dist]

/-- Moving `tail` back shortens a nonzero distance by one. -/
theorem word_dist_dec {a b : UInt32} (h : b ≠ a) :
    (b - 1 - a).toNat = (b - a).toNat - 1 := by
  have ha := a.toNat_lt_size
  have hb := b.toNat_lt_size
  change _ < 2 ^ 32 at ha hb
  have hne : b.toNat ≠ a.toNat := fun he => h (UInt32.toNat_inj.mp he)
  rw [UInt32.toNat_sub, UInt32.toNat_sub, UInt32.toNat_sub]
  change (2 ^ 32 - a.toNat + (2 ^ 32 - 1 + b.toNat) % 2 ^ 32) % 2 ^ 32 = _
  omega

/-- Two counters at the same distance from `a` are equal. -/
theorem word_dist_inj {a b c : UInt32} (h : (b - a).toNat = (c - a).toNat) : b = c := by
  have ha := a.toNat_lt_size
  have hb := b.toNat_lt_size
  have hc := c.toNat_lt_size
  change _ < 2 ^ 32 at ha hb hc
  rw [UInt32.toNat_sub, UInt32.toNat_sub] at h
  rw [← UInt32.toNat_inj]
  omega

/-- The distance from `a` to `c` passes through a `b` that is no further away. -/
theorem word_dist_add {a b c : UInt32} (h : (b - a).toNat ≤ (c - a).toNat) :
    (c - a).toNat = (b - a).toNat + (c - b).toNat := by
  have ha := a.toNat_lt_size
  have hb := b.toNat_lt_size
  have hc := c.toNat_lt_size
  change _ < 2 ^ 32 at ha hb hc
  rw [UInt32.toNat_sub, UInt32.toNat_sub] at h
  rw [UInt32.toNat_sub, UInt32.toNat_sub, UInt32.toNat_sub]
  omega

section Word

variable (data : Fin cap → α) (hcap : cap ∣ 2 ^ 32)
include hcap

/-- The view from `a` to `c` is the view from `a` to `b` followed by the view from `b` to `c`. -/
theorem ringView_word_split {a b c : UInt32} (h : (b - a).toNat ≤ (c - a).toNat) :
    ringView data a.toNat (c - a).toNat =
      ringView data a.toNat (b - a).toNat ++ ringView data b.toNat (c - b).toNat := by
  rw [word_dist_add h, ringView_append, ← ringView_mod data hcap (a.toNat + (b - a).toNat),
    word_add_dist]

/-- Taking at `a` removes the head of a nonempty view from `a` to `b`. -/
theorem ringView_word_take {a b : UInt32} (h : a ≠ b) :
    ringView data a.toNat (b - a).toNat =
      data (slot cap a.toNat) :: ringView data (a + 1).toNat (b - (a + 1)).toNat := by
  have hpos : (b - a).toNat ≠ 0 := fun h0 => h (word_dist_eq_zero.mp h0)
  obtain ⟨k, hk⟩ := Nat.exists_eq_succ_of_ne_zero hpos
  rw [word_dist_pred h, hk, ringView_succ_cons, ringView_word_succ data hcap, Nat.succ_sub_one]

/-- Storing at `b` and moving it forward appends to a view from `a` that is not full. -/
theorem ringView_word_push (hlt : cap < 2 ^ 32) {a b : UInt32} (h : (b - a).toNat < cap)
    (x : α) :
    ringView (Function.update data (slot cap b.toNat) x) a.toNat (b + 1 - a).toNat =
      ringView data a.toNat (b - a).toNat ++ [x] := by
  rw [word_dist_succ (by omega), ← slot_word_tail hcap a b]
  exact ringView_push data a.toNat (b - a).toNat h x

/-- Storing at `c`, less than `cap` ahead of `a`, leaves the view from `a` to an earlier `b`
alone. -/
theorem ringView_word_update {a b c : UInt32} (h : (b - a).toNat ≤ (c - a).toNat)
    (hc : (c - a).toNat < cap) (x : α) :
    ringView (Function.update data (slot cap c.toNat) x) a.toNat (b - a).toNat =
      ringView data a.toNat (b - a).toNat := by
  rw [← slot_word_tail hcap a c]
  exact ringView_update_of_le data a.toNat _ _ h hc x

end Word

end Xv6.Lib
