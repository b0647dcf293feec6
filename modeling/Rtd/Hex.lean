import Rtd.MoveArith
import Rtd.Except
import Mathlib

/-!
`rtd::hex` (`rtd-framework/sources/hex.move`): the Base16 text of a byte string. `encode`
writes each byte as the two lowercase digits the table `HEX` holds for it; `decode` asserts an
even length and reads the digits back two at a time, in either case, through `decode_byte`,
whose `u8` arithmetic is Move's checked arithmetic.

Over the source stands what the encoding is for: `decode` inverts `encode`, it accepts exactly
the strings of an even number of hex digits, what it accepts encodes back to the same digits in
lowercase, and it aborts only with its two error constants, each for its own reason.
-/

set_option autoImplicit false

namespace Rtd

namespace Hex

open MoveArith

/-- The error constants of `rtd::hex`. -/
inductive ErrorConst where
  | eInvalidHexLength
  | eNotValidHexCharacter
  deriving DecidableEq, Repr

/-! ### Digits -/

/-- The ASCII digit of a value below sixteen: `0` to `9`, then `a` to `f`. -/
def hexDigit (d : Nat) : UInt8 := if d < 10 then (48 + d).toUInt8 else (87 + d).toUInt8

/-- The lowercase of an ASCII letter; every other byte stays as it is. -/
def toLowerAscii (c : UInt8) : UInt8 := if 65 ≤ c.toNat ∧ c.toNat < 91 then c + 32 else c

/-- A hex digit: a byte whose lowercase is one of the sixteen digits. -/
def IsHexDigit (c : UInt8) : Prop := toLowerAscii c ∈ (List.range 16).map hexDigit

instance (c : UInt8) : Decidable (IsHexDigit c) := inferInstanceAs (Decidable (_ ∈ _))

theorem isHexDigit_of_hexDigit_eq {c : UInt8} {d : Nat} (hd : d < 16)
    (h : hexDigit d = toLowerAscii c) : IsHexDigit c :=
  List.mem_map.2 ⟨d, List.mem_range.2 hd, h⟩

/-! ### The source's functions -/

/-- The digits of `HEX` as the source writes them, from `b"00"` to `b"ff"`. -/
def hexTable : List (List Char) := [
  ['0', '0'], ['0', '1'], ['0', '2'], ['0', '3'], ['0', '4'], ['0', '5'], ['0', '6'], ['0', '7'], ['0', '8'], ['0', '9'], ['0', 'a'], ['0', 'b'], ['0', 'c'], ['0', 'd'], ['0', 'e'], ['0', 'f'],
  ['1', '0'], ['1', '1'], ['1', '2'], ['1', '3'], ['1', '4'], ['1', '5'], ['1', '6'], ['1', '7'], ['1', '8'], ['1', '9'], ['1', 'a'], ['1', 'b'], ['1', 'c'], ['1', 'd'], ['1', 'e'], ['1', 'f'],
  ['2', '0'], ['2', '1'], ['2', '2'], ['2', '3'], ['2', '4'], ['2', '5'], ['2', '6'], ['2', '7'], ['2', '8'], ['2', '9'], ['2', 'a'], ['2', 'b'], ['2', 'c'], ['2', 'd'], ['2', 'e'], ['2', 'f'],
  ['3', '0'], ['3', '1'], ['3', '2'], ['3', '3'], ['3', '4'], ['3', '5'], ['3', '6'], ['3', '7'], ['3', '8'], ['3', '9'], ['3', 'a'], ['3', 'b'], ['3', 'c'], ['3', 'd'], ['3', 'e'], ['3', 'f'],
  ['4', '0'], ['4', '1'], ['4', '2'], ['4', '3'], ['4', '4'], ['4', '5'], ['4', '6'], ['4', '7'], ['4', '8'], ['4', '9'], ['4', 'a'], ['4', 'b'], ['4', 'c'], ['4', 'd'], ['4', 'e'], ['4', 'f'],
  ['5', '0'], ['5', '1'], ['5', '2'], ['5', '3'], ['5', '4'], ['5', '5'], ['5', '6'], ['5', '7'], ['5', '8'], ['5', '9'], ['5', 'a'], ['5', 'b'], ['5', 'c'], ['5', 'd'], ['5', 'e'], ['5', 'f'],
  ['6', '0'], ['6', '1'], ['6', '2'], ['6', '3'], ['6', '4'], ['6', '5'], ['6', '6'], ['6', '7'], ['6', '8'], ['6', '9'], ['6', 'a'], ['6', 'b'], ['6', 'c'], ['6', 'd'], ['6', 'e'], ['6', 'f'],
  ['7', '0'], ['7', '1'], ['7', '2'], ['7', '3'], ['7', '4'], ['7', '5'], ['7', '6'], ['7', '7'], ['7', '8'], ['7', '9'], ['7', 'a'], ['7', 'b'], ['7', 'c'], ['7', 'd'], ['7', 'e'], ['7', 'f'],
  ['8', '0'], ['8', '1'], ['8', '2'], ['8', '3'], ['8', '4'], ['8', '5'], ['8', '6'], ['8', '7'], ['8', '8'], ['8', '9'], ['8', 'a'], ['8', 'b'], ['8', 'c'], ['8', 'd'], ['8', 'e'], ['8', 'f'],
  ['9', '0'], ['9', '1'], ['9', '2'], ['9', '3'], ['9', '4'], ['9', '5'], ['9', '6'], ['9', '7'], ['9', '8'], ['9', '9'], ['9', 'a'], ['9', 'b'], ['9', 'c'], ['9', 'd'], ['9', 'e'], ['9', 'f'],
  ['a', '0'], ['a', '1'], ['a', '2'], ['a', '3'], ['a', '4'], ['a', '5'], ['a', '6'], ['a', '7'], ['a', '8'], ['a', '9'], ['a', 'a'], ['a', 'b'], ['a', 'c'], ['a', 'd'], ['a', 'e'], ['a', 'f'],
  ['b', '0'], ['b', '1'], ['b', '2'], ['b', '3'], ['b', '4'], ['b', '5'], ['b', '6'], ['b', '7'], ['b', '8'], ['b', '9'], ['b', 'a'], ['b', 'b'], ['b', 'c'], ['b', 'd'], ['b', 'e'], ['b', 'f'],
  ['c', '0'], ['c', '1'], ['c', '2'], ['c', '3'], ['c', '4'], ['c', '5'], ['c', '6'], ['c', '7'], ['c', '8'], ['c', '9'], ['c', 'a'], ['c', 'b'], ['c', 'c'], ['c', 'd'], ['c', 'e'], ['c', 'f'],
  ['d', '0'], ['d', '1'], ['d', '2'], ['d', '3'], ['d', '4'], ['d', '5'], ['d', '6'], ['d', '7'], ['d', '8'], ['d', '9'], ['d', 'a'], ['d', 'b'], ['d', 'c'], ['d', 'd'], ['d', 'e'], ['d', 'f'],
  ['e', '0'], ['e', '1'], ['e', '2'], ['e', '3'], ['e', '4'], ['e', '5'], ['e', '6'], ['e', '7'], ['e', '8'], ['e', '9'], ['e', 'a'], ['e', 'b'], ['e', 'c'], ['e', 'd'], ['e', 'e'], ['e', 'f'],
  ['f', '0'], ['f', '1'], ['f', '2'], ['f', '3'], ['f', '4'], ['f', '5'], ['f', '6'], ['f', '7'], ['f', '8'], ['f', '9'], ['f', 'a'], ['f', 'b'], ['f', 'c'], ['f', 'd'], ['f', 'e'], ['f', 'f']]

/-- `HEX`. -/
def HEX : List (List UInt8) := hexTable.map (List.map Char.toUInt8)

set_option maxRecDepth 8000 in
/-- Entry `b` of the table is the high digit of `b` followed by its low digit. -/
theorem HEX_eq : HEX = (List.range 256).map fun b => [hexDigit (b / 16), hexDigit (b % 16)] := by
  decide +kernel

theorem length_HEX : HEX.length = 256 := by simp [HEX_eq]

/-- `hex_vector[bytes[i] as u64]`: every byte indexes an entry of the table. -/
def hexOf (b : UInt8) : List UInt8 := HEX.get ⟨b.toNat, length_HEX ▸ b.toNat_lt⟩

/-- `encode`: the loop appends the entry of each byte in turn. -/
def encode (bytes : List UInt8) : List UInt8 :=
  bytes.foldl (fun r b => r ++ hexOf b) []

/-- `decode_byte`: the value of a digit `0` to `9`, `A` to `F` or `a` to `f`. -/
def decodeByte (hex : UInt8) : Except (Abort ErrorConst) Nat :=
  if 48 ≤ hex.toNat ∧ hex.toNat < 58 then
    sub hex.toNat 48
  else if 65 ≤ hex.toNat ∧ hex.toNat < 71 then do
    sub (← add 8 10 hex.toNat) 65
  else if 97 ≤ hex.toNat ∧ hex.toNat < 103 then do
    sub (← add 8 10 hex.toNat) 97
  else
    .error (.abort .eNotValidHexCharacter)

/-- The loop of `decode`, two digits at a time, with `r` the bytes decoded so far. Each byte is
`decode_byte(hex[i]) * 16 + decode_byte(hex[i + 1])`, evaluated left to right in `u8`. The loop
ends when no digit is left: a single digit is never left, since `decode` asserts an even length
before the loop. -/
def decodeLoop : List UInt8 → List UInt8 → Except (Abort ErrorConst) (List UInt8)
  | h :: l :: rest, r => do
    let high ← mul 8 (← decodeByte h) 16
    let decimal ← add 8 high (← decodeByte l)
    decodeLoop rest (r ++ [decimal.toUInt8])
  | _, r => .ok r

/-- `decode`. -/
def decode (hex : List UInt8) : Except (Abort ErrorConst) (List UInt8) :=
  if hex.length % 2 = 0 then decodeLoop hex [] else .error (.abort .eInvalidHexLength)

/-! ### Encoding -/

theorem hexOf_eq (b : UInt8) : hexOf b = [hexDigit (b.toNat / 16), hexDigit (b.toNat % 16)] := by
  simp [hexOf, HEX_eq]

/-- The loop of `encode` appends the entries of the remaining bytes to what it has written. -/
theorem foldl_hexOf (bytes r : List UInt8) :
    bytes.foldl (fun r b => r ++ hexOf b) r = r ++ bytes.flatMap hexOf := by
  induction bytes generalizing r with
  | nil => simp
  | cons b bs ih => simp [ih]

theorem encode_eq (bytes : List UInt8) : encode bytes = bytes.flatMap hexOf := by
  rw [encode, foldl_hexOf, List.nil_append]

@[simp] theorem encode_nil : encode [] = [] := rfl

@[simp] theorem encode_cons (b : UInt8) (bytes : List UInt8) :
    encode (b :: bytes) = hexDigit (b.toNat / 16) :: hexDigit (b.toNat % 16) :: encode bytes := by
  simp [encode_eq, hexOf_eq]

@[simp] theorem length_encode (bytes : List UInt8) : (encode bytes).length = 2 * bytes.length := by
  induction bytes with
  | nil => rfl
  | cons b bs ih => simp [ih]; omega

/-! ### Decoding one digit -/

theorem forall_uint8 {P : UInt8 → Prop} (h : ∀ n < 256, P n.toUInt8) (c : UInt8) : P c := by
  simpa using h c.toNat c.toNat_lt

/-- `decode_byte` reads back each of the sixteen digits that `encode` writes. -/
theorem decodeByte_hexDigit {d : Nat} (hd : d < 16) : decodeByte (hexDigit d) = .ok d := by
  interval_cases d <;> rfl

set_option maxRecDepth 8000 in
/-- `decode_byte` of any byte gives a value below sixteen whose digit is the byte in lowercase,
or aborts with `ENotValidHexCharacter` at a byte that is not a hex digit: its `u8` arithmetic
never overflows. -/
theorem decodeByte_holds (c : UInt8) :
    Except.Holds (fun e => e = .abort .eNotValidHexCharacter ∧ ¬ IsHexDigit c)
      (fun v => v < 16 ∧ hexDigit v = toLowerAscii c) (decodeByte c) := by
  -- the three ranges of the source, checked at each of the 256 values of a `u8`
  revert c
  exact forall_uint8 (by decide +kernel)

set_option maxRecDepth 8000 in
theorem decodeByte_toLowerAscii (c : UInt8) : decodeByte (toLowerAscii c) = decodeByte c := by
  revert c
  exact forall_uint8 (by decide +kernel)

/-! ### Decoding -/

/-- Two digits of the table decode to the byte whose entry they are. -/
theorem decodeLoop_hexOf (b : UInt8) (rest r : List UInt8) :
    decodeLoop (hexOf b ++ rest) r = decodeLoop rest (r ++ [b]) := by
  have hb : b.toNat < 2 ^ 8 := b.toNat_lt
  have hhigh : b.toNat / 16 < 16 := by omega
  have hlow : b.toNat % 16 < 16 := by omega
  have hmul : b.toNat / 16 * 16 < 2 ^ 8 := by omega
  have hadd : b.toNat / 16 * 16 + b.toNat % 16 < 2 ^ 8 := by omega
  have hbyte : (b.toNat / 16 * 16 + b.toNat % 16).toUInt8 = b := by
    rw [show b.toNat / 16 * 16 + b.toNat % 16 = b.toNat by omega]
    exact UInt8.ofNat_toNat
  simp only [hexOf_eq, List.cons_append, List.nil_append, decodeLoop, decodeByte_hexDigit hhigh,
    decodeByte_hexDigit hlow, Except.ok_bind, mul_of_lt hmul, add_of_lt hadd, hbyte]

theorem decodeLoop_flatMap (bytes r : List UInt8) :
    decodeLoop (bytes.flatMap hexOf) r = .ok (r ++ bytes) := by
  induction bytes generalizing r with
  | nil => simp [decodeLoop]
  | cons b bs ih => simp [List.flatMap_cons, decodeLoop_hexOf, ih]

/-- Where the loop stops: fewer than two digits are left. -/
theorem eq_nil_or_singleton {s : List UInt8} (hne : ∀ h l rest, s ≠ h :: l :: rest) :
    s = [] ∨ ∃ c, s = [c] := by
  match s, hne with
  | [], _ => exact .inl rfl
  | [c], _ => exact .inr ⟨c, rfl⟩
  | _ :: _ :: _, hne => exact absurd rfl (hne _ _ _)

/-- What the loop does with a string of an even number of bytes: it appends bytes that encode
back to the string in lowercase, every byte of the string being a hex digit, or it aborts with
`ENotValidHexCharacter` at a byte that is not one. -/
theorem decodeLoop_holds (s r : List UInt8) (hs : s.length % 2 = 0) :
    Except.Holds (fun e => e = .abort .eNotValidHexCharacter ∧ ∃ c ∈ s, ¬ IsHexDigit c)
      (fun out => ∃ bs, out = r ++ bs ∧ encode bs = s.map toLowerAscii ∧ ∀ c ∈ s, IsHexDigit c)
      (decodeLoop s r) := by
  fun_induction decodeLoop s r with
  | case1 h l rest r ih =>
    have hrest : rest.length % 2 = 0 := by simp at hs; omega
    refine Except.Holds.bind ((decodeByte_holds h).mono (fun _ hv => hv) ?_) ?_
    · rintro e ⟨he, hh⟩
      exact ⟨he, h, by simp, hh⟩
    rintro high ⟨hhigh, hdh⟩
    rw [mul_of_lt (by omega), Except.ok_bind]
    refine Except.Holds.bind ((decodeByte_holds l).mono (fun _ hv => hv) ?_) ?_
    · rintro e ⟨he, hl⟩
      exact ⟨he, l, by simp, hl⟩
    rintro low ⟨hlow, hdl⟩
    rw [add_of_lt (by omega), Except.ok_bind]
    -- the byte the two digits make has them as its high and low digit
    have hval : (high * 16 + low) % 256 = high * 16 + low := Nat.mod_eq_of_lt (by omega)
    refine (ih _ hrest).mono ?_ ?_
    · rintro out ⟨bs, rfl, henc, hall⟩
      refine ⟨(high * 16 + low).toUInt8 :: bs, by simp, ?_, ?_⟩
      · have hq : (high * 16 + low) / 16 = high := by omega
        have hm : (high * 16 + low) % 16 = low := by omega
        simp [hval, hq, hm, hdh, hdl, henc]
      · simp only [List.mem_cons, forall_eq_or_imp]
        exact ⟨isHexDigit_of_hexDigit_eq hhigh hdh, isHexDigit_of_hexDigit_eq hlow hdl, hall⟩
    · rintro e ⟨he, c, hc, hnot⟩
      exact ⟨he, c, by simp [hc], hnot⟩
  | case2 s r hne =>
    -- fewer than two digits are left, and by the even length none is
    rcases eq_nil_or_singleton hne with rfl | ⟨c, rfl⟩
    · exact ⟨[], by simp, rfl, by simp⟩
    · simp at hs

/-- What `decode` does with any string: at an odd length it aborts with `EInvalidHexLength`; at
an even one it decodes to bytes that encode back to the string in lowercase, every byte of the
string being a hex digit, or it aborts with `ENotValidHexCharacter` at a byte that is not one. -/
theorem decode_holds (hex : List UInt8) :
    Except.Holds
      (fun e => (e = .abort .eInvalidHexLength ∧ hex.length % 2 = 1) ∨
        (e = .abort .eNotValidHexCharacter ∧ hex.length % 2 = 0 ∧ ∃ c ∈ hex, ¬ IsHexDigit c))
      (fun bytes => encode bytes = hex.map toLowerAscii ∧ hex.length % 2 = 0 ∧
        ∀ c ∈ hex, IsHexDigit c)
      (decode hex) := by
  unfold decode
  split
  · next heven =>
    refine (decodeLoop_holds hex [] heven).mono ?_ ?_
    · rintro out ⟨bs, rfl, henc, hall⟩
      exact ⟨henc, heven, hall⟩
    · rintro e ⟨he, hc⟩
      exact .inr ⟨he, heven, hc⟩
  · next hodd => exact .inl ⟨rfl, by omega⟩

/-- Decoding inverts encoding. -/
theorem decode_encode (bytes : List UInt8) : decode (encode bytes) = .ok bytes := by
  have heven : (encode bytes).length % 2 = 0 := by simp
  rw [decode, if_pos heven, encode_eq, decodeLoop_flatMap, List.nil_append]

/-- What `decode` accepts, `encode` writes back as the same digits in lowercase. -/
theorem encode_decode {hex bytes : List UInt8} (h : decode hex = .ok bytes) :
    encode bytes = hex.map toLowerAscii := by
  have hholds := decode_holds hex
  rw [h] at hholds
  exact hholds.1

theorem encode_decode_upper :
    decode [48, 70] = .ok [15] ∧ encode [15] = [48, 70].map toLowerAscii :=
  ⟨rfl, encode_decode rfl⟩

/-- `decode` succeeds exactly on the strings of an even number of hex digits. -/
theorem decode_ok_iff (hex : List UInt8) :
    (∃ bytes, decode hex = .ok bytes) ↔ hex.length % 2 = 0 ∧ ∀ c ∈ hex, IsHexDigit c := by
  have hholds := decode_holds hex
  constructor
  · rintro ⟨bytes, h⟩
    rw [h] at hholds
    exact hholds.2
  · rintro ⟨heven, hall⟩
    cases hdec : decode hex with
    | ok bytes => exact ⟨bytes, rfl⟩
    | error e =>
      -- both aborts contradict the even length of hex digits
      rw [hdec] at hholds
      rcases hholds with ⟨-, hodd⟩ | ⟨-, -, c, hc, hnot⟩
      · omega
      · exact absurd (hall c hc) hnot

/-- `decode` aborts only with its own two error constants: `EInvalidHexLength` at an odd
length, `ENotValidHexCharacter` at an even length with a byte that is not a hex digit. -/
theorem decode_error {hex : List UInt8} {e : Abort ErrorConst} (h : decode hex = .error e) :
    (e = .abort .eInvalidHexLength ∧ hex.length % 2 = 1) ∨
      (e = .abort .eNotValidHexCharacter ∧ hex.length % 2 = 0 ∧ ∃ c ∈ hex, ¬ IsHexDigit c) := by
  have hholds := decode_holds hex
  rw [h] at hholds
  exact hholds

theorem decode_error_not_digit :
    decode [48, 71] = .error (.abort .eNotValidHexCharacter) ∧
      ((Abort.abort ErrorConst.eNotValidHexCharacter = .abort .eInvalidHexLength ∧
          [(48 : UInt8), 71].length % 2 = 1) ∨
        (Abort.abort ErrorConst.eNotValidHexCharacter = .abort .eNotValidHexCharacter ∧
          [(48 : UInt8), 71].length % 2 = 0 ∧ ∃ c ∈ [(48 : UInt8), 71], ¬ IsHexDigit c)) :=
  ⟨rfl, decode_error rfl⟩

theorem decodeLoop_map_toLowerAscii (s r : List UInt8) :
    decodeLoop (s.map toLowerAscii) r = decodeLoop s r := by
  fun_induction decodeLoop s r with
  | case1 h l rest r ih =>
    simp only [List.map_cons, decodeLoop, decodeByte_toLowerAscii, ih]
  | case2 s r hne =>
    rcases eq_nil_or_singleton hne with rfl | ⟨c, rfl⟩ <;> rfl

/-- `decode` does not see the case of the letters of its string. -/
theorem decode_toLowerAscii (hex : List UInt8) : decode (hex.map toLowerAscii) = decode hex := by
  simp only [decode, List.length_map, decodeLoop_map_toLowerAscii]

end Hex

end Rtd
