import Mathlib

/-!
Little-endian byte strings: the `n` low bytes of a natural, least significant first, as an
unsigned word's `to_le_bytes` gives them, and the natural a byte string encodes, as
`from_le_bytes` reads it back. Both round trips hold at every width. Last, the bit masks of
a 16-bit word, `w & (1 << i)` and `w | (1 << i)`, read through `Nat.testBit`.
-/

set_option autoImplicit false

namespace Bytes

/-- The `n` low bytes of `x`, least significant first. -/
def leBytes : Nat → Nat → List UInt8
  | 0, _ => []
  | n + 1, x => (x % 256).toUInt8 :: leBytes n (x / 256)

/-- The natural that a byte string encodes, least significant byte first. -/
def ofLeBytes : List UInt8 → Nat
  | [] => 0
  | b :: bs => b.toNat + 256 * ofLeBytes bs

@[simp] theorem length_leBytes (n x : Nat) : (leBytes n x).length = n := by
  induction n generalizing x with
  | zero => rfl
  | succ n ih => simp [leBytes, ih]

theorem ofLeBytes_lt (bs : List UInt8) : ofLeBytes bs < 256 ^ bs.length := by
  induction bs with
  | nil => simp [ofLeBytes]
  | cons b bs ih =>
    have hb : b.toNat < 256 := b.toNat_lt
    rw [ofLeBytes, List.length_cons, pow_succ]
    omega

/-- Reading back the `n` low bytes of `x` gives `x` modulo `256 ^ n`. -/
theorem ofLeBytes_leBytes (n x : Nat) : ofLeBytes (leBytes n x) = x % 256 ^ n := by
  induction n generalizing x with
  | zero => simp [leBytes, ofLeBytes, Nat.mod_one]
  | succ n ih =>
    -- the low byte, then the bytes of the quotient
    rw [leBytes, ofLeBytes, ih, pow_succ', Nat.mod_mul]
    simp

theorem ofLeBytes_leBytes_of_lt {n x : Nat} (hx : x < 256 ^ n) : ofLeBytes (leBytes n x) = x := by
  rw [ofLeBytes_leBytes, Nat.mod_eq_of_lt hx]

/-- A byte string is the encoding, at its own length, of the natural it encodes. -/
theorem leBytes_ofLeBytes (bs : List UInt8) : leBytes bs.length (ofLeBytes bs) = bs := by
  induction bs with
  | nil => rfl
  | cons b bs ih =>
    have hb : b.toNat < 256 := b.toNat_lt
    have hmod : (b.toNat + 256 * ofLeBytes bs) % 256 = b.toNat := by omega
    have hdiv : (b.toNat + 256 * ofLeBytes bs) / 256 = ofLeBytes bs := by omega
    rw [List.length_cons, leBytes, ofLeBytes, hmod, hdiv, ih, Nat.toUInt8_eq, UInt8.ofNat_toNat]

theorem leBytes_ofLeBytes_of_length {bs : List UInt8} {n : Nat} (h : bs.length = n) :
    leBytes n (ofLeBytes bs) = bs := by
  subst h
  exact leBytes_ofLeBytes bs

section Bits

theorem toNat_one_shiftLeft {i : Nat} (hi : i < 16) :
    ((1 : UInt16) <<< i.toUInt16).toNat = 2 ^ i := by
  have hi' : i.toUInt16.toNat = i := by
    rw [Nat.toUInt16_eq, UInt16.toNat_ofNat', Nat.mod_eq_of_lt (by omega)]
  rw [UInt16.toNat_shiftLeft, hi', Nat.mod_eq_of_lt hi, UInt16.toNat_one, Nat.one_shiftLeft,
    Nat.mod_eq_of_lt (Nat.pow_lt_pow_right (by omega) hi)]

/-- `w & (1 << i) != 0` tests bit `i`. -/
theorem and_shiftLeft_ne_zero (w : UInt16) {i : Nat} (hi : i < 16) :
    (w &&& ((1 : UInt16) <<< i.toUInt16) != 0) = w.toNat.testBit i := by
  have hand : (w &&& ((1 : UInt16) <<< i.toUInt16)).toNat = (w.toNat.testBit i).toNat * 2 ^ i := by
    rw [UInt16.toNat_and, toNat_one_shiftLeft hi, Nat.and_two_pow]
  apply Bool.eq_iff_iff.2
  rw [bne_iff_ne, ne_eq, ← UInt16.toNat_inj, hand, UInt16.toNat_zero]
  cases w.toNat.testBit i <;> simp

/-- `w | (1 << i)` sets bit `i` and keeps the others. -/
theorem testBit_or_shiftLeft (w : UInt16) {i : Nat} (hi : i < 16) (j : Nat) :
    (w ||| ((1 : UInt16) <<< i.toUInt16)).toNat.testBit j =
      (w.toNat.testBit j || decide (i = j)) := by
  rw [UInt16.toNat_or, toNat_one_shiftLeft hi, Nat.testBit_or, Nat.testBit_two_pow]

end Bits

end Bytes
