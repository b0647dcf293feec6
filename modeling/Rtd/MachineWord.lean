import Mathlib

/-!
Machine words as natural numbers and integers. An unsigned word of `w` bits holds the
naturals below `2^w` and a signed one the integers in `[-2^(w-1), 2^(w-1))`. The checked
operations return `none` where the hardware operation would overflow; the casts between
widths and signedness wrap, as a cast does in a language without overflow checks on casts.
Rounding to the nearest integer, ties up, is stated over the rationals.
-/

set_option autoImplicit false

namespace MachineWord

variable (w : ℕ)

section Checked

/-- Unsigned addition that fails on a carry out of the word. -/
def checkedAdd (a b : ℕ) : Option ℕ := if a + b < 2 ^ w then some (a + b) else none

/-- Unsigned subtraction that fails on a borrow, at any width. -/
def checkedSub (a b : ℕ) : Option ℕ := if b ≤ a then some (a - b) else none

/-- Unsigned multiplication that fails when the product does not fit. -/
def checkedMul (a b : ℕ) : Option ℕ := if a * b < 2 ^ w then some (a * b) else none

/-- Unsigned division that fails on a zero divisor, at any width. -/
def checkedDiv (a b : ℕ) : Option ℕ := if b = 0 then none else some (a / b)

/-- Unsigned remainder that fails on a zero divisor, at any width. -/
def checkedRem (a b : ℕ) : Option ℕ := if b = 0 then none else some (a % b)

/-- The integers a signed word of `w` bits holds. -/
def InSigned (x : ℤ) : Prop := -(2 ^ (w - 1) : ℤ) ≤ x ∧ x < 2 ^ (w - 1)

instance (x : ℤ) : Decidable (InSigned w x) := inferInstanceAs (Decidable (_ ∧ _))

/-- Signed subtraction that fails when the difference leaves the signed range. -/
def checkedSubSigned (a b : ℤ) : Option ℤ := if InSigned w (a - b) then some (a - b) else none

/-- Signed negation that fails on the least value, whose negation does not fit. -/
def checkedNegSigned (a : ℤ) : Option ℤ := if InSigned w (-a) then some (-a) else none

variable {w} {a b r : ℕ}

@[simp] theorem checkedAdd_eq_some : checkedAdd w a b = some r ↔ a + b < 2 ^ w ∧ a + b = r := by
  unfold checkedAdd; split <;> simp_all

@[simp] theorem checkedSub_eq_some : checkedSub a b = some r ↔ b ≤ a ∧ a - b = r := by
  unfold checkedSub; split <;> simp_all

@[simp] theorem checkedMul_eq_some : checkedMul w a b = some r ↔ a * b < 2 ^ w ∧ a * b = r := by
  unfold checkedMul; split <;> simp_all

@[simp] theorem checkedDiv_eq_some : checkedDiv a b = some r ↔ 0 < b ∧ a / b = r := by
  unfold checkedDiv; split <;> simp_all [Nat.pos_iff_ne_zero]

@[simp] theorem checkedRem_eq_some : checkedRem a b = some r ↔ 0 < b ∧ a % b = r := by
  unfold checkedRem; split <;> simp_all [Nat.pos_iff_ne_zero]

@[simp] theorem checkedSubSigned_eq_some {a b r : ℤ} :
    checkedSubSigned w a b = some r ↔ InSigned w (a - b) ∧ a - b = r := by
  unfold checkedSubSigned; split <;> simp_all

@[simp] theorem checkedNegSigned_eq_some {a r : ℤ} :
    checkedNegSigned w a = some r ↔ InSigned w (-a) ∧ -a = r := by
  unfold checkedNegSigned; split <;> simp_all

end Checked

section Casts

/-- An unsigned value read as a signed word of `w` bits: two's complement. -/
def toSigned (x : ℕ) : ℤ := (x : ℤ).bmod (2 ^ w)

/-- A signed value read as an unsigned word of `w` bits. -/
def toUnsigned (x : ℤ) : ℕ := (x % (2 ^ w : ℕ)).toNat

/-- A wider unsigned value cut down to `w` bits. -/
def truncate (x : ℕ) : ℕ := x % 2 ^ w

variable {w}

theorem toSigned_of_lt {x : ℕ} (hw : 0 < w) (hx : x < 2 ^ (w - 1)) : toSigned w x = x := by
  obtain ⟨p, hp⟩ : ∃ p, 2 ^ (w - 1) = p := ⟨_, rfl⟩
  have hpow : 2 ^ w = 2 * p := by
    rw [← hp, ← pow_succ']; congr 1; omega
  have hmod : (x : ℤ) % ((2 ^ w : ℕ) : ℤ) = x :=
    Int.emod_eq_of_lt (by omega) (by rw [hpow]; push_cast; omega)
  unfold toSigned
  rw [Int.bmod_def, hmod, if_pos (by rw [hpow]; push_cast; omega)]

theorem toUnsigned_of_nonneg {x : ℤ} (h0 : 0 ≤ x) (hx : x < 2 ^ w) : (toUnsigned w x : ℤ) = x := by
  unfold toUnsigned
  rw [Int.emod_eq_of_lt h0 (by exact_mod_cast hx), Int.toNat_of_nonneg h0]

theorem truncate_of_lt {x : ℕ} (hx : x < 2 ^ w) : truncate w x = x := Nat.mod_eq_of_lt hx

end Casts

section Rounding

/-- The integer nearest to a nonnegative rational, ties going up. -/
def roundHalfUp (q : ℚ) : ℕ := ⌊q + 1 / 2⌋₊

/-- Integer rounding that adds half of an even denominator before dividing rounds the
quotient to the nearest integer, ties up. -/
theorem roundHalfUp_div (a d : ℕ) (hd : 2 ∣ d) :
    roundHalfUp ((a : ℚ) / d) = (a + d / 2) / d := by
  obtain ⟨k, rfl⟩ := hd
  rcases Nat.eq_zero_or_pos k with rfl | hk
  · norm_num [roundHalfUp]
  have hq : (a : ℚ) / (2 * k : ℕ) + 1 / 2 = ((a + 2 * k / 2 : ℕ) : ℚ) / (2 * k : ℕ) := by
    have hk' : (k : ℚ) ≠ 0 := by exact_mod_cast hk.ne'
    rw [Nat.mul_div_cancel_left k two_pos]
    push_cast
    field_simp
  rw [roundHalfUp, hq, Nat.floor_div_eq_div]

end Rounding

end MachineWord
