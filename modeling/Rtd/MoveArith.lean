import Mathlib

/-!
Unsigned integer arithmetic of Move. A value of a type of `w` bits is a natural below `2 ^ w`.
Addition and multiplication abort on overflow, subtraction on underflow, division on a zero
divisor, a cast on a value the target type does not hold, and a shift on an amount not below
the width; a left shift drops the bits it moves out.
-/

set_option autoImplicit false

namespace MoveArith

/-- Why a Move computation stops: an arithmetic error of the VM, or an `abort` of the code with
an error constant of type `E`. -/
inductive Abort (E : Type) where
  | arithmeticError
  | abort (e : E)
  deriving DecidableEq, Repr

variable {E : Type} (w : Nat)

def add (a b : Nat) : Except (Abort E) Nat :=
  if a + b < 2 ^ w then .ok (a + b) else .error .arithmeticError

def sub (a b : Nat) : Except (Abort E) Nat :=
  if b ≤ a then .ok (a - b) else .error .arithmeticError

def mul (a b : Nat) : Except (Abort E) Nat :=
  if a * b < 2 ^ w then .ok (a * b) else .error .arithmeticError

def div (a b : Nat) : Except (Abort E) Nat :=
  if b = 0 then .error .arithmeticError else .ok (a / b)

def shl (a s : Nat) : Except (Abort E) Nat :=
  if s < w then .ok (a <<< s % 2 ^ w) else .error .arithmeticError

def shr (a s : Nat) : Except (Abort E) Nat :=
  if s < w then .ok (a >>> s) else .error .arithmeticError

/-- `a as uw`. -/
def cast (a : Nat) : Except (Abort E) Nat :=
  if a < 2 ^ w then .ok a else .error .arithmeticError

/-- `max_value!()` of the type of `w` bits. -/
def maxValue : Nat := 2 ^ w - 1

variable {w} {a b s : Nat}

theorem add_of_lt (h : a + b < 2 ^ w) : (add w a b : Except (Abort E) Nat) = .ok (a + b) :=
  if_pos h

theorem add_eq_ok {v : Nat} (h : (add w a b : Except (Abort E) Nat) = .ok v) :
    v = a + b ∧ a + b < 2 ^ w := by
  unfold add at h
  split at h
  · next hlt => exact ⟨(Except.ok.inj h).symm, hlt⟩
  · cases h

theorem sub_of_le (h : b ≤ a) : (sub a b : Except (Abort E) Nat) = .ok (a - b) := if_pos h

theorem mul_of_lt (h : a * b < 2 ^ w) : (mul w a b : Except (Abort E) Nat) = .ok (a * b) :=
  if_pos h

theorem mul_of_le (h : 2 ^ w ≤ a * b) :
    (mul w a b : Except (Abort E) Nat) = .error .arithmeticError :=
  if_neg (Nat.not_lt.2 h)

theorem div_of_ne_zero (h : b ≠ 0) : (div a b : Except (Abort E) Nat) = .ok (a / b) := if_neg h

/-- A left shift that moves no bit out multiplies by a power of two. -/
theorem shl_of_lt (hs : s < w) (h : a * 2 ^ s < 2 ^ w) :
    (shl w a s : Except (Abort E) Nat) = .ok (a * 2 ^ s) := by
  rw [shl, if_pos hs, Nat.shiftLeft_eq, Nat.mod_eq_of_lt h]

theorem shr_of_lt (hs : s < w) : (shr w a s : Except (Abort E) Nat) = .ok (a / 2 ^ s) := by
  rw [shr, if_pos hs, Nat.shiftRight_eq_div_pow]

theorem cast_of_lt (h : a < 2 ^ w) : (cast w a : Except (Abort E) Nat) = .ok a := if_pos h

theorem maxValue_lt : maxValue w < 2 ^ w := Nat.sub_lt (Nat.two_pow_pos w) Nat.one_pos

theorem le_maxValue_iff : a ≤ maxValue w ↔ a < 2 ^ w := by
  have := Nat.two_pow_pos w
  unfold maxValue
  omega

theorem cast_of_le_maxValue (h : a ≤ maxValue w) : (cast w a : Except (Abort E) Nat) = .ok a :=
  cast_of_lt (le_maxValue_iff.1 h)

end MoveArith
