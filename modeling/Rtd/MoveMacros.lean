import Rtd.MoveArith
import Rtd.Except
import Mathlib

/-!
The numeric macros of the Move standard library (`move-stdlib/sources/macros.move`) and the
functions of the integer and fixed-point modules that instantiate them. A macro is generic in
its types, so its model takes the widths of its types as parameters: `t` for `$T` and `u` for
the wider `$U`. The shifts of `num_sqrt!` by 1 and 2 are plain: no Move type is narrower than
8 bits, so they never abort.
-/

set_option autoImplicit false

namespace Rtd

namespace MoveMacros

open MoveArith

/-- The error constants of `uq64_64` and `uq32_32`. -/
inductive ErrorConst where
  | eDenominator
  | eQuotientTooSmall
  | eQuotientTooLarge
  | eOverflow
  | eDivisionByZero
  deriving DecidableEq, Repr

variable {E : Type}

/-! ### The macros -/

/-- The loop of `num_pow!`: an even exponent squares the base, an odd one multiplies the base
into the result. -/
def numPowLoop (w base exponent res : Nat) : Except (Abort E) Nat :=
  if h : exponent ≥ 1 then
    if exponent % 2 = 0 then do
      let base ← mul w base base
      numPowLoop w base (exponent / 2) res
    else do
      let res ← mul w res base
      numPowLoop w base (exponent - 1) res
  else .ok res
termination_by exponent
decreasing_by all_goals omega

def numPow (w base exponent : Nat) : Except (Abort E) Nat := numPowLoop w base exponent 1

/-- The loop of `num_sqrt!`, one digit of the root for each `bit`, a power of four. -/
def numSqrtLoop (u bit res x : Nat) : Except (Abort E) Nat :=
  if _ : bit ≠ 0 then do
    if x ≥ (← add u res bit) then do
      let x ← sub x (← add u res bit)
      let res ← add u (res >>> 1) bit
      numSqrtLoop u (bit >>> 2) res x
    else numSqrtLoop u (bit >>> 2) (res >>> 1) x
  else .ok res
termination_by bit
decreasing_by all_goals (rw [Nat.shiftRight_eq_div_pow]; omega)

def numSqrt (t u x bitsize : Nat) : Except (Abort E) Nat := do
  let bit ← shl u 1 bitsize
  let x ← cast u x
  let res ← numSqrtLoop u bit 0 x
  cast t res

/-- `uq_from_quotient!`: the numerator scaled to `t_bits` fractional bits over the denominator
scaled to `t_bits - fractional_bits`. -/
def uqFromQuotient (t u numerator denominator maxT tBits fractionalBits : Nat)
    (abortDenominator abortQuotientTooSmall abortQuotientTooLarge : Abort E) :
    Except (Abort E) Nat := do
  if denominator = 0 then throw abortDenominator
  let scaledNumerator ← shl u (← cast u numerator) tBits
  let scaledDenominator ← shl u (← cast u denominator) (← sub tBits fractionalBits)
  let quotient ← div scaledNumerator scaledDenominator
  if quotient = 0 ∧ numerator ≠ 0 then throw abortQuotientTooSmall
  if quotient > (← cast u maxT) then throw abortQuotientTooLarge
  cast t quotient

def uqIntMul (t u val multiplier maxT fractionalBits : Nat) (abortOverflow : Abort E) :
    Except (Abort E) Nat := do
  let unscaledProduct ← mul u (← cast u val) (← cast u multiplier)
  let product ← shr u unscaledProduct fractionalBits
  if product > (← cast u maxT) then throw abortOverflow
  cast t product

def uqIntDiv (t u val divisor maxT fractionalBits : Nat)
    (abortDivisionByZero abortOverflow : Abort E) : Except (Abort E) Nat := do
  if divisor = 0 then throw abortDivisionByZero
  let scaledValue ← shl u (← cast u val) fractionalBits
  let quotient ← div scaledValue (← cast u divisor)
  if quotient > (← cast u maxT) then throw abortOverflow
  cast t quotient

/-! ### `num_sqrt!` -/

section Sqrt

/-- The invariant of the loop of `num_sqrt!` at `bit = 4 ^ k`: `y`, the digits of the root
found so far, is the root of `n` at the scale `4 ^ (k + 1)`. -/
structure SqrtInv (n k y : Nat) : Prop where
  lower : y ^ 2 * 4 ^ (k + 1) ≤ n
  upper : n < (y + 1) ^ 2 * 4 ^ (k + 1)

theorem shiftRight_one_scaled (y k : Nat) : (y * 4 ^ (k + 1)) >>> 1 = 2 * y * 4 ^ k := by
  have h : y * 4 ^ (k + 1) = 2 * y * 4 ^ k * 2 := by ring
  rw [Nat.shiftRight_eq_div_pow, h, pow_one, Nat.mul_div_cancel _ two_pos]

theorem four_pow_shiftRight_two (k : Nat) : 4 ^ (k + 1) >>> 2 = 4 ^ k := by
  rw [Nat.shiftRight_eq_div_pow, pow_succ, show 2 ^ 2 = 4 from rfl,
    Nat.mul_div_cancel _ (by omega)]

/-- One iteration finds the next digit of the root: with `4 ^ k` as the bit, the loop goes on
with the digits `2 * y + 1` where their square fits in `n`, and `2 * y` otherwise. -/
theorem numSqrtLoop_step {u n k y : Nat} (hinv : SqrtInv n k y) (hfit : n + 4 ^ k < 2 ^ u) :
    ∃ y', y' ^ 2 * 4 ^ k ≤ n ∧ n < (y' + 1) ^ 2 * 4 ^ k ∧
      (numSqrtLoop u (4 ^ k) (y * 4 ^ (k + 1)) (n - y ^ 2 * 4 ^ (k + 1)) :
          Except (Abort E) Nat) =
        numSqrtLoop u (4 ^ k >>> 2) (y' * 4 ^ k) (n - y' ^ 2 * 4 ^ k) := by
  -- the scaled digits stay below `n`, so adding the bit does not overflow
  have hres : y * 4 ^ (k + 1) ≤ n :=
    (Nat.mul_le_mul_right _ (Nat.le_self_pow two_ne_zero y)).trans hinv.lower
  have hadd : (add u (y * 4 ^ (k + 1)) (4 ^ k) : Except (Abort E) Nat) =
      .ok (y * 4 ^ (k + 1) + 4 ^ k) := add_of_lt (by omega)
  have hodd : (2 * y + 1) ^ 2 * 4 ^ k = y ^ 2 * 4 ^ (k + 1) + (y * 4 ^ (k + 1) + 4 ^ k) := by
    ring
  have heven : (2 * y) ^ 2 * 4 ^ k = y ^ 2 * 4 ^ (k + 1) := by ring
  have hbit : 0 < 4 ^ k := pow_pos (by omega) k
  rw [numSqrtLoop, dif_pos hbit.ne']
  simp only [hadd, Except.ok_bind]
  by_cases hdigit : (2 * y + 1) ^ 2 * 4 ^ k ≤ n
  · -- the digit is one
    have hge : n - y ^ 2 * 4 ^ (k + 1) ≥ y * 4 ^ (k + 1) + 4 ^ k := by omega
    have hnext : (2 * y + 1 + 1) ^ 2 * 4 ^ k = (y + 1) ^ 2 * 4 ^ (k + 1) := by ring
    have hsum : 2 * y * 4 ^ k + 4 ^ k = (2 * y + 1) * 4 ^ k := by ring
    have hfits : 2 * y * 4 ^ k + 4 ^ k < 2 ^ u := by
      have := Nat.mul_le_mul_right (4 ^ k) (Nat.le_self_pow two_ne_zero (2 * y + 1))
      omega
    refine ⟨2 * y + 1, hdigit, hnext ▸ hinv.upper, ?_⟩
    rw [if_pos hge, sub_of_le hge, Except.ok_bind, shiftRight_one_scaled, add_of_lt hfits,
      Except.ok_bind, hsum]
    congr 1
    omega
  · -- the digit is zero
    have hlt : ¬(n - y ^ 2 * 4 ^ (k + 1) ≥ y * 4 ^ (k + 1) + 4 ^ k) := by omega
    refine ⟨2 * y, heven ▸ hinv.lower, by omega, ?_⟩
    rw [if_neg hlt, shiftRight_one_scaled, heven]

/-- From the bit `4 ^ k` down, the loop returns the root. -/
theorem numSqrtLoop_eq {u n : Nat} (k : Nat) {y : Nat} (hinv : SqrtInv n k y)
    (hfit : n + 4 ^ k < 2 ^ u) :
    (numSqrtLoop u (4 ^ k) (y * 4 ^ (k + 1)) (n - y ^ 2 * 4 ^ (k + 1)) :
        Except (Abort E) Nat) = .ok (Nat.sqrt n) := by
  induction k generalizing y with
  | zero =>
    -- the last digit: the bit shifts out and the loop stops with the root
    obtain ⟨y', hlower, hupper, hstep⟩ := numSqrtLoop_step (E := E) hinv hfit
    rw [hstep, numSqrtLoop, dif_neg (by simp)]
    rw [pow_zero, mul_one] at hlower hupper ⊢
    exact congrArg _ (Nat.eq_sqrt'.2 ⟨hlower, hupper⟩)
  | succ k ih =>
    obtain ⟨y', hlower, hupper, hstep⟩ := numSqrtLoop_step (E := E) hinv hfit
    have hle : 4 ^ k ≤ 4 ^ (k + 1) := Nat.pow_le_pow_right (by omega) k.le_succ
    have hbit : 0 < 4 ^ k := pow_pos (by omega) k
    rw [hstep, four_pow_shiftRight_two]
    exact ih ⟨hlower, hupper⟩ (by omega)

/-- `num_sqrt!` on a type of an even number of bits, with a wider type for the loop, is the
floor square root. -/
theorem numSqrt_eq {t u K n : Nat} (hu : 2 * K < u) (ht : 2 * K ≤ t) (hn : n < 2 ^ (2 * K)) :
    (numSqrt t u n (2 * K) : Except (Abort E) Nat) = .ok (Nat.sqrt n) := by
  have hpow : 2 ^ (2 * K) = 4 ^ K := by rw [pow_mul]; rfl
  have hpos : 0 < 4 ^ K := pow_pos (by omega) K
  have hwide : 2 ^ (2 * K) * 2 ≤ 2 ^ u := by
    rw [← pow_succ]
    exact Nat.pow_le_pow_right (by omega) hu
  have hbit : (shl u 1 (2 * K) : Except (Abort E) Nat) = .ok (4 ^ K) := by
    rw [shl_of_lt hu (by omega), one_mul, hpow]
  have hcast : (cast u n : Except (Abort E) Nat) = .ok n := cast_of_lt (by omega)
  -- the loop starts with no digit found
  have hstart : SqrtInv n K 0 := ⟨by simp, by rw [zero_add, one_pow, one_mul, pow_succ]; omega⟩
  have hloop := numSqrtLoop_eq (E := E) (u := u) K hstart (by omega)
  rw [zero_mul, zero_pow two_ne_zero, zero_mul, Nat.sub_zero] at hloop
  have hroot : (cast t (Nat.sqrt n) : Except (Abort E) Nat) = .ok (Nat.sqrt n) :=
    cast_of_lt ((Nat.sqrt_le_self n).trans_lt
      (hn.trans_le (Nat.pow_le_pow_right (by omega) ht)))
  simp only [numSqrt, hbit, hcast, hloop, hroot, Except.ok_bind]

end Sqrt

/-! ### `num_pow!` -/

section Pow

variable {w : Nat}

/-- A square the loop forms on an exponent of at least two is at most the value it computes,
whose result factor is not zero unless the base is. -/
theorem square_le_of_even {base res exponent : Nat} (hzero : 0 < res ∨ base = 0)
    (he : 2 ≤ exponent) (hbase : 0 < base) : base * base ≤ res * base ^ exponent := by
  have hres : 0 < res := hzero.resolve_right hbase.ne'
  calc base * base = base ^ 2 := (sq base).symm
    _ ≤ base ^ exponent := Nat.pow_le_pow_right hbase he
    _ ≤ res * base ^ exponent := Nat.le_mul_of_pos_left _ hres

theorem product_le_of_pos (res : Nat) {base exponent : Nat} (he : 1 ≤ exponent)
    (hbase : 0 < base) :
    res * base ≤ res * base ^ exponent :=
  Nat.mul_le_mul_left res (by simpa using Nat.pow_le_pow_right hbase he)

/-- The loop of `num_pow!` returns `res * base ^ exponent` where it fits, and aborts on
overflow otherwise. The invariant is that value: squaring the base on an even exponent and
multiplying it into the result on an odd one keep it, and every square or product formed is at
most it. -/
theorem numPowLoop_eq (exponent : Nat) {base res : Nat} (hbase : base < 2 ^ w)
    (hres : res < 2 ^ w) (hzero : 0 < res ∨ base = 0) :
    (numPowLoop w base exponent res : Except (Abort E) Nat) =
      if res * base ^ exponent < 2 ^ w then .ok (res * base ^ exponent)
      else .error .arithmeticError := by
  induction exponent using Nat.strong_induction_on generalizing base res with
  | _ e ih =>
    rw [numPowLoop]
    by_cases he : e ≥ 1
    · rw [dif_pos he]
      by_cases heven : e % 2 = 0
      · -- square the base: the exponent halves
        rw [if_pos heven]
        have hsq : (base * base) ^ (e / 2) = base ^ e := by
          rw [← sq, ← pow_mul, Nat.mul_div_cancel' (Nat.dvd_of_mod_eq_zero heven)]
        by_cases hfits : base * base < 2 ^ w
        · have hzero' : 0 < res ∨ base * base = 0 := hzero.imp_right fun h => by simp [h]
          rw [mul_of_lt hfits, Except.ok_bind, ih (e / 2) (by omega) hfits hres hzero', hsq]
        · rw [mul_of_le (Nat.not_lt.1 hfits), Except.error_bind, if_neg]
          have hbase' : 0 < base := Nat.pos_of_ne_zero fun h => hfits (by simp [h])
          have he2 : 2 ≤ e := by omega
          have := square_le_of_even hzero he2 hbase'
          omega
      · -- multiply the base into the result: the exponent drops by one
        rw [if_neg heven]
        have hpow : res * base * base ^ (e - 1) = res * base ^ e := by
          rw [Nat.mul_assoc, ← pow_succ', Nat.sub_add_cancel he]
        by_cases hfits : res * base < 2 ^ w
        · have hzero' : 0 < res * base ∨ base = 0 := by
            rcases Nat.eq_zero_or_pos base with h | h
            · exact .inr h
            · exact .inl (Nat.mul_pos (hzero.resolve_right h.ne') h)
          rw [mul_of_lt hfits, Except.ok_bind, ih (e - 1) (by omega) hbase hfits hzero', hpow]
        · rw [mul_of_le (Nat.not_lt.1 hfits), Except.error_bind, if_neg]
          have hbase' : 0 < base := Nat.pos_of_ne_zero fun h => hfits (by simp [h])
          have := product_le_of_pos res he hbase'
          omega
    · -- no exponent left: the result is the value
      have he0 : e = 0 := by omega
      subst he0
      rw [dif_neg he, pow_zero, Nat.mul_one, if_pos hres]

/-- `num_pow!` returns the power where it fits in the type, and aborts on overflow
otherwise. -/
theorem numPow_eq (hw : 0 < w) {base : Nat} (hbase : base < 2 ^ w) (exponent : Nat) :
    (numPow w base exponent : Except (Abort E) Nat) =
      if base ^ exponent < 2 ^ w then .ok (base ^ exponent) else .error .arithmeticError := by
  rw [numPow, numPowLoop_eq exponent hbase (Nat.one_lt_two_pow hw.ne') (.inl Nat.one_pos),
    Nat.one_mul]

end Pow

/-! ### The fixed-point macros -/

section FixedPoint

variable {t u : Nat}

/-- The numerator scaled by `2 ^ t` over the denominator scaled by `2 ^ (t - f)` leaves `f`
fractional bits. -/
theorem scaled_div {n d f t : Nat} (hf : f ≤ t) :
    n * 2 ^ t / (d * 2 ^ (t - f)) = n * 2 ^ f / d := by
  have hsplit : n * 2 ^ t = n * 2 ^ f * 2 ^ (t - f) := by
    rw [Nat.mul_assoc, ← pow_add, Nat.add_sub_cancel' hf]
  rw [hsplit, Nat.mul_div_mul_right _ _ (Nat.two_pow_pos _)]

theorem lt_wide (hu : 2 * t ≤ u) {a : Nat} (ha : a < 2 ^ t) : a < 2 ^ u :=
  ha.trans_le (Nat.pow_le_pow_right two_pos (by omega))

theorem narrow_mul_lt (hu : 2 * t ≤ u) {a b : Nat} (ha : a < 2 ^ t) (hb : b ≤ 2 ^ t) :
    a * b < 2 ^ u :=
  calc a * b < 2 ^ t * 2 ^ t := Nat.mul_lt_mul_of_lt_of_le ha hb (Nat.two_pow_pos t)
    _ = 2 ^ (2 * t) := by rw [← pow_add, two_mul]
    _ ≤ 2 ^ u := Nat.pow_le_pow_right (by omega) hu

theorem uqFromQuotient_eq (ht : 0 < t) (hu : 2 * t ≤ u) {f n d : Nat} (hf : f ≤ t)
    (hn : n < 2 ^ t) (hd : d < 2 ^ t)
    {abortDenominator abortQuotientTooSmall abortQuotientTooLarge : Abort E} :
    uqFromQuotient t u n d (maxValue t) t f abortDenominator abortQuotientTooSmall
        abortQuotientTooLarge =
      if d = 0 then .error abortDenominator
      else if n * 2 ^ f / d = 0 ∧ n ≠ 0 then .error abortQuotientTooSmall
      else if n * 2 ^ f / d > maxValue t then .error abortQuotientTooLarge
      else .ok (n * 2 ^ f / d) := by
  by_cases hd0 : d = 0
  · simp [uqFromQuotient, hd0]
  · have hscaled : d * 2 ^ (t - f) ≠ 0 := Nat.mul_ne_zero hd0 (Nat.two_pow_pos _).ne'
    simp only [uqFromQuotient, hd0, cast_of_lt (lt_wide hu hn), cast_of_lt (lt_wide hu hd),
      cast_of_lt (lt_wide hu maxValue_lt), shl_of_lt (by omega) (narrow_mul_lt hu hn le_rfl),
      sub_of_le hf,
      shl_of_lt (by omega) (narrow_mul_lt hu hd (Nat.pow_le_pow_right two_pos (Nat.sub_le t f))),
      div_of_ne_zero hscaled, scaled_div hf, Except.ok_bind, if_false, Except.throw_eq_error,
      Except.error_bind]
    -- the two guards, then the cast of a quotient within the maximum
    split_ifs with hsmall hlarge
    · rfl
    · rfl
    · exact cast_of_le_maxValue (Nat.not_lt.1 hlarge)

theorem uqIntMul_eq (hu : 2 * t ≤ u) {f v m : Nat} (hf : f < u) (hv : v < 2 ^ t)
    (hm : m < 2 ^ t) {abortOverflow : Abort E} :
    uqIntMul t u v m (maxValue t) f abortOverflow =
      if v * m / 2 ^ f > maxValue t then .error abortOverflow else .ok (v * m / 2 ^ f) := by
  simp only [uqIntMul, cast_of_lt (lt_wide hu hv), cast_of_lt (lt_wide hu hm),
    cast_of_lt (lt_wide hu maxValue_lt), mul_of_lt (narrow_mul_lt hu hv hm.le), shr_of_lt hf,
    Except.ok_bind, Except.throw_eq_error, Except.error_bind]
  split_ifs with hlarge
  · rfl
  · exact cast_of_le_maxValue (Nat.not_lt.1 hlarge)

theorem uqIntDiv_eq (ht : 0 < t) (hu : 2 * t ≤ u) {f v m : Nat} (hf : f ≤ t) (hv : v < 2 ^ t)
    (hm : m < 2 ^ t) {abortDivisionByZero abortOverflow : Abort E} :
    uqIntDiv t u v m (maxValue t) f abortDivisionByZero abortOverflow =
      if m = 0 then .error abortDivisionByZero
      else if v * 2 ^ f / m > maxValue t then .error abortOverflow
      else .ok (v * 2 ^ f / m) := by
  by_cases hm0 : m = 0
  · simp [uqIntDiv, hm0]
  · simp only [uqIntDiv, hm0, cast_of_lt (lt_wide hu hv), cast_of_lt (lt_wide hu hm),
      cast_of_lt (lt_wide hu maxValue_lt),
      shl_of_lt (by omega) (narrow_mul_lt hu hv (Nat.pow_le_pow_right two_pos hf)),
      div_of_ne_zero hm0, Except.ok_bind, if_false, Except.throw_eq_error, Except.error_bind]
    split_ifs with hlarge
    · rfl
    · exact cast_of_le_maxValue (Nat.not_lt.1 hlarge)

end FixedPoint

/-! ### The integer modules

`std::u8` to `std::u256` raise no error of their own.
-/

namespace u8

def pow (base exponent : Nat) : Except (Abort Empty) Nat := numPow 8 base exponent

def sqrt (x : Nat) : Except (Abort Empty) Nat := numSqrt 8 16 x 8

end u8

namespace u16

def pow (base exponent : Nat) : Except (Abort Empty) Nat := numPow 16 base exponent

def sqrt (x : Nat) : Except (Abort Empty) Nat := numSqrt 16 32 x 16

end u16

namespace u32

def pow (base exponent : Nat) : Except (Abort Empty) Nat := numPow 32 base exponent

def sqrt (x : Nat) : Except (Abort Empty) Nat := numSqrt 32 64 x 32

end u32

namespace u64

def pow (base exponent : Nat) : Except (Abort Empty) Nat := numPow 64 base exponent

def sqrt (x : Nat) : Except (Abort Empty) Nat := numSqrt 64 128 x 64

end u64

namespace u128

def pow (base exponent : Nat) : Except (Abort Empty) Nat := numPow 128 base exponent

def sqrt (x : Nat) : Except (Abort Empty) Nat := numSqrt 128 256 x 128

end u128

namespace u256

def pow (base exponent : Nat) : Except (Abort Empty) Nat := numPow 256 base exponent

end u256

/-! ### The fixed-point modules -/

/-- `std::uq64_64::UQ64_64`, over its raw `u128`. -/
structure UQ64_64 where
  raw : Nat
  deriving DecidableEq, Repr

namespace UQ64_64

def totalBits : Nat := 128

def fractionalBits : Nat := 64

def fromQuotient (numerator denominator : Nat) : Except (Abort ErrorConst) UQ64_64 :=
  UQ64_64.mk <$> uqFromQuotient 128 256 numerator denominator (maxValue 128) totalBits
    fractionalBits (.abort .eDenominator) (.abort .eQuotientTooSmall) (.abort .eQuotientTooLarge)

def intMul (val : Nat) (multiplier : UQ64_64) : Except (Abort ErrorConst) Nat :=
  uqIntMul 128 256 val multiplier.raw (maxValue 128) fractionalBits (.abort .eOverflow)

def intDiv (val : Nat) (divisor : UQ64_64) : Except (Abort ErrorConst) Nat :=
  uqIntDiv 128 256 val divisor.raw (maxValue 128) fractionalBits (.abort .eDivisionByZero)
    (.abort .eOverflow)

end UQ64_64

/-- `std::uq32_32::UQ32_32`, over its raw `u64`. -/
structure UQ32_32 where
  raw : Nat
  deriving DecidableEq, Repr

namespace UQ32_32

def totalBits : Nat := 64

def fractionalBits : Nat := 32

def fromQuotient (numerator denominator : Nat) : Except (Abort ErrorConst) UQ32_32 :=
  UQ32_32.mk <$> uqFromQuotient 64 128 numerator denominator (maxValue 64) totalBits
    fractionalBits (.abort .eDenominator) (.abort .eQuotientTooSmall) (.abort .eQuotientTooLarge)

def intMul (val : Nat) (multiplier : UQ32_32) : Except (Abort ErrorConst) Nat :=
  uqIntMul 64 128 val multiplier.raw (maxValue 64) fractionalBits (.abort .eOverflow)

def intDiv (val : Nat) (divisor : UQ32_32) : Except (Abort ErrorConst) Nat :=
  uqIntDiv 64 128 val divisor.raw (maxValue 64) fractionalBits (.abort .eDivisionByZero)
    (.abort .eOverflow)

end UQ32_32

/-! ### The macros at the types that use them -/

theorem floorSqrt_of_eq {W : Nat} {sqrt : Nat → Except (Abort Empty) Nat}
    (h : ∀ x < 2 ^ W, sqrt x = .ok (Nat.sqrt x)) :
    ∀ x < 2 ^ W, ∃ r, sqrt x = .ok r ∧ r * r ≤ x ∧ x < (r + 1) * (r + 1) :=
  fun x hx => ⟨Nat.sqrt x, h x hx, Nat.sqrt_le x, Nat.lt_succ_sqrt x⟩

/-- The numeric macros are exact at every type the standard library instantiates them with:
`sqrt` is the floor square root, `pow` the power unless it overflows, and the fixed-point
quotient, product and division are rounded down, each aborting exactly where its result is out
of range. -/
theorem moveMacros_exact :
    (∀ x < 2 ^ 8, ∃ r, u8.sqrt x = .ok r ∧ r * r ≤ x ∧ x < (r + 1) * (r + 1)) ∧
    (∀ x < 2 ^ 16, ∃ r, u16.sqrt x = .ok r ∧ r * r ≤ x ∧ x < (r + 1) * (r + 1)) ∧
    (∀ x < 2 ^ 32, ∃ r, u32.sqrt x = .ok r ∧ r * r ≤ x ∧ x < (r + 1) * (r + 1)) ∧
    (∀ x < 2 ^ 64, ∃ r, u64.sqrt x = .ok r ∧ r * r ≤ x ∧ x < (r + 1) * (r + 1)) ∧
    (∀ x < 2 ^ 128, ∃ r, u128.sqrt x = .ok r ∧ r * r ≤ x ∧ x < (r + 1) * (r + 1)) ∧
    (∀ base < 2 ^ 8, ∀ e < 2 ^ 8, u8.pow base e =
      if base ^ e < 2 ^ 8 then .ok (base ^ e) else .error .arithmeticError) ∧
    (∀ base < 2 ^ 16, ∀ e < 2 ^ 8, u16.pow base e =
      if base ^ e < 2 ^ 16 then .ok (base ^ e) else .error .arithmeticError) ∧
    (∀ base < 2 ^ 32, ∀ e < 2 ^ 8, u32.pow base e =
      if base ^ e < 2 ^ 32 then .ok (base ^ e) else .error .arithmeticError) ∧
    (∀ base < 2 ^ 64, ∀ e < 2 ^ 8, u64.pow base e =
      if base ^ e < 2 ^ 64 then .ok (base ^ e) else .error .arithmeticError) ∧
    (∀ base < 2 ^ 128, ∀ e < 2 ^ 8, u128.pow base e =
      if base ^ e < 2 ^ 128 then .ok (base ^ e) else .error .arithmeticError) ∧
    (∀ base < 2 ^ 256, ∀ e < 2 ^ 8, u256.pow base e =
      if base ^ e < 2 ^ 256 then .ok (base ^ e) else .error .arithmeticError) ∧
    (∀ n < 2 ^ 128, ∀ d < 2 ^ 128, UQ64_64.fromQuotient n d =
      if d = 0 then .error (.abort .eDenominator)
      else if n * 2 ^ 64 / d = 0 ∧ n ≠ 0 then .error (.abort .eQuotientTooSmall)
      else if n * 2 ^ 64 / d > maxValue 128 then .error (.abort .eQuotientTooLarge)
      else .ok ⟨n * 2 ^ 64 / d⟩) ∧
    (∀ v < 2 ^ 128, ∀ m : UQ64_64, m.raw < 2 ^ 128 → UQ64_64.intMul v m =
      if v * m.raw / 2 ^ 64 > maxValue 128 then .error (.abort .eOverflow)
      else .ok (v * m.raw / 2 ^ 64)) ∧
    (∀ v < 2 ^ 128, ∀ m : UQ64_64, m.raw < 2 ^ 128 → UQ64_64.intDiv v m =
      if m.raw = 0 then .error (.abort .eDivisionByZero)
      else if v * 2 ^ 64 / m.raw > maxValue 128 then .error (.abort .eOverflow)
      else .ok (v * 2 ^ 64 / m.raw)) ∧
    (∀ n < 2 ^ 64, ∀ d < 2 ^ 64, UQ32_32.fromQuotient n d =
      if d = 0 then .error (.abort .eDenominator)
      else if n * 2 ^ 32 / d = 0 ∧ n ≠ 0 then .error (.abort .eQuotientTooSmall)
      else if n * 2 ^ 32 / d > maxValue 64 then .error (.abort .eQuotientTooLarge)
      else .ok ⟨n * 2 ^ 32 / d⟩) ∧
    (∀ v < 2 ^ 64, ∀ m : UQ32_32, m.raw < 2 ^ 64 → UQ32_32.intMul v m =
      if v * m.raw / 2 ^ 32 > maxValue 64 then .error (.abort .eOverflow)
      else .ok (v * m.raw / 2 ^ 32)) ∧
    (∀ v < 2 ^ 64, ∀ m : UQ32_32, m.raw < 2 ^ 64 → UQ32_32.intDiv v m =
      if m.raw = 0 then .error (.abort .eDivisionByZero)
      else if v * 2 ^ 32 / m.raw > maxValue 64 then .error (.abort .eOverflow)
      else .ok (v * 2 ^ 32 / m.raw)) := by
  refine ⟨floorSqrt_of_eq fun x hx => numSqrt_eq (K := 4) (by decide) le_rfl hx,
    floorSqrt_of_eq fun x hx => numSqrt_eq (K := 8) (by decide) le_rfl hx,
    floorSqrt_of_eq fun x hx => numSqrt_eq (K := 16) (by decide) le_rfl hx,
    floorSqrt_of_eq fun x hx => numSqrt_eq (K := 32) (by decide) le_rfl hx,
    floorSqrt_of_eq fun x hx => numSqrt_eq (K := 64) (by decide) le_rfl hx,
    fun base hb e _ => numPow_eq (by decide) hb e,
    fun base hb e _ => numPow_eq (by decide) hb e,
    fun base hb e _ => numPow_eq (by decide) hb e,
    fun base hb e _ => numPow_eq (by decide) hb e,
    fun base hb e _ => numPow_eq (by decide) hb e,
    fun base hb e _ => numPow_eq (by decide) hb e,
    fun n hn d hd => ?_, fun v hv m hm => ?_, fun v hv m hm => ?_,
    fun n hn d hd => ?_, fun v hv m hm => ?_, fun v hv m hm => ?_⟩
  -- the fixed-point functions: the macros at their types, the raw value wrapped
  · rw [UQ64_64.fromQuotient, UQ64_64.totalBits, UQ64_64.fractionalBits,
      uqFromQuotient_eq (by decide) le_rfl (by decide) hn hd]
    split_ifs <;> rfl
  · exact uqIntMul_eq le_rfl (by decide) hv hm
  · exact uqIntDiv_eq (by decide) le_rfl (by decide) hv hm
  · rw [UQ32_32.fromQuotient, UQ32_32.totalBits, UQ32_32.fractionalBits,
      uqFromQuotient_eq (by decide) le_rfl (by decide) hn hd]
    split_ifs <;> rfl
  · exact uqIntMul_eq le_rfl (by decide) hv hm
  · exact uqIntDiv_eq (by decide) le_rfl (by decide) hv hm

/-- The root of 80 as a `u64`, `2 ^ 8` as a `u8`, which overflows, and one third as a
`UQ64_64`. -/
theorem moveMacros_exact_samples :
    (∃ r, u64.sqrt 80 = .ok r ∧ r * r ≤ 80 ∧ 80 < (r + 1) * (r + 1)) ∧
      u8.pow 2 8 = .error .arithmeticError ∧
      UQ64_64.fromQuotient 1 3 = .ok ⟨6148914691236517205⟩ := by
  obtain ⟨-, -, -, hsqrt, -, hpow, -, -, -, -, -, hquotient, -⟩ := moveMacros_exact
  refine ⟨hsqrt 80 (by decide), ?_, ?_⟩
  · rw [hpow 2 (by decide) 8 (by decide)]
    decide
  · rw [hquotient 1 (by decide) 3 (by decide)]
    decide

end MoveMacros

end Rtd
