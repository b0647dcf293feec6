import Rtd.StreamCodec
import Rtd.MoveArith
import Rtd.Bytes
import Mathlib

/-!
`rtd::bcs` (`rtd-framework/sources/bcs.move`): reading BCS-encoded values off the front of a
byte string. A `BCS` holds the bytes not read yet in reverse order, so that each byte is read
with a `pop_back`. `peel_u8`, `peel_num!` and `peel_address` assert that enough bytes are left;
`peel_vec_length` reads a ULEB128 length of at most five bytes; the macros `peel_vec!` and
`peel_option!` read a vector, or an option, of what a given peel reads. A call on a `&mut BCS` is
a `StateT` computation on the `BCS`; an abort stops the transaction, so it returns no state.

The format itself, as the summary at the head of the source gives it, is `serialize t v`: the
bytes of a value `v` of a type `t`. Move code reads a value of a compound type by composing the
peel functions and macros, and `peelTy t` is that composition for every type `t`.
-/

set_option autoImplicit false

namespace Rtd

namespace Bcs

open MoveArith StreamCodec

/-- The error constants of `rtd::bcs`. -/
inductive ErrorConst where
  | eOutOfRange
  | eNotBool
  | eLenOutOfRange
  deriving DecidableEq, Repr

/-- Why a peel stops the transaction. -/
inductive Abort where
  /-- An arithmetic error of the VM. -/
  | arithmeticError
  /-- `vector::pop_back` of an empty vector. -/
  | popEmptyVector
  | bcs (e : ErrorConst)
  /-- `address::EAddressParseError`, from the native `address::from_bytes`. -/
  | addressParseError
  deriving DecidableEq, Repr

/-! ### Addresses -/

/-- `address::length()`. -/
def addressLength : Nat := 32

/-- An `address`: its bytes. -/
structure Address where
  bytes : List UInt8
  length_bytes : bytes.length = addressLength
  deriving DecidableEq

/-- `address::from_bytes`, a native function: the address of thirty-two bytes. -/
def Address.fromBytes (bytes : List UInt8) : Except Abort Address :=
  if h : bytes.length = addressLength then .ok ⟨bytes, h⟩ else .error .addressParseError

theorem Address.fromBytes_bytes (a : Address) : Address.fromBytes a.bytes = .ok a := by
  rw [Address.fromBytes, dif_pos a.length_bytes]

/-! ### The state of a peel -/

/-- `BCS`: the bytes not read yet, the next one last. -/
structure BCS where
  bytes : List UInt8
  deriving DecidableEq, Repr

/-- `new`. -/
def new (bytes : List UInt8) : BCS := ⟨bytes.reverse⟩

/-- `into_remainder_bytes`. -/
def intoRemainderBytes (bcs : BCS) : List UInt8 := bcs.bytes.reverse

/-- A `BCS` is the byte string that `into_remainder_bytes` gives back: `new` and
`into_remainder_bytes` are inverse. -/
def stream : List UInt8 ≃ BCS where
  toFun := new
  invFun := intoRemainderBytes
  left_inv := by
    intro bytes
    simp [new, intoRemainderBytes]
  right_inv := by
    intro bcs
    simp [new, intoRemainderBytes]

@[simp] theorem stream_apply (bytes : List UInt8) : stream bytes = new bytes := rfl

/-- A call on a `&mut BCS`. -/
abbrev Peel := StateT BCS (Except Abort)

/-- `bcs.bytes.pop_back()`. -/
def popBack : Peel UInt8 := fun bcs =>
  match bcs.bytes.getLast? with
  | some b => .ok (b, ⟨bcs.bytes.dropLast⟩)
  | none => .error .popEmptyVector

/-- `bcs.bytes.length()`. -/
def bytesLength : Peel Nat := fun bcs => .ok (bcs.bytes.length, bcs)

/-- `assert!(b, e)`. -/
def moveAssert (b : Bool) (e : ErrorConst) : Peel Unit :=
  if b then pure () else throw (.bcs e)

/-- `assert!(bcs.bytes.length() >= len, EOutOfRange)`: the check of `peel_address`, `peel_u8`
and `peel_num!` that enough bytes are left. -/
def assertLength (len : Nat) : Peel Unit := do
  moveAssert ((← bytesLength) ≥ len) .eOutOfRange

/-- An operation of Move's integer arithmetic: its arithmetic error aborts the call. -/
def arith (x : Except (MoveArith.Abort Empty) Nat) : Peel Nat :=
  match x with
  | .ok v => pure v
  | .error _ => throw .arithmeticError

/-- The loop of `vector::tabulate!(n, f)` (`move-stdlib/sources/vector.move`), through `do!`:
`v.push_back(f(i))` for each `i` from `0` below `n`. -/
def tabulateLoop {α : Type} (n : Nat) (f : Nat → Peel α) (i : Nat) (v : List α) :
    Peel (List α) :=
  if i < n then do
    let x ← f i
    tabulateLoop n f (i + 1) (v ++ [x])
  else pure v
termination_by n - i

/-- `vector::tabulate!(n, f)`. -/
def tabulate {α : Type} (n : Nat) (f : Nat → Peel α) : Peel (List α) := tabulateLoop n f 0 []

/-! ### The peel functions -/

/-- `peel_address`. -/
def peelAddress : Peel Address := do
  assertLength addressLength
  let bytes ← tabulate addressLength fun _ => popBack
  StateT.lift (Address.fromBytes bytes)

/-- `peel_u8`. -/
def peelU8 : Peel UInt8 := do
  assertLength 1
  popBack

/-- `peel_bool`. -/
def peelBool : Peel Bool := do
  let value ← peelU8
  if value = 0 then pure false
  else if value = 1 then pure true
  else throw (.bcs .eNotBool)

/-- The loop of `peel_num!` with `$T` of `t` bits: while `i < bits`, the next byte, as a `$T`,
goes into `value` shifted left by `i`. The increment of `i` never passes `bits`, which `$I`
holds in each instance, so it is plain. -/
def peelNumLoop (t bits value i : Nat) : Peel Nat :=
  if i < bits then do
    let byte ← arith (cast t (← popBack).toNat)
    let value ← arith (add t value (← arith (shl t byte (← arith (cast 8 i)))))
    peelNumLoop t bits value (i + 8)
  else pure value
termination_by bits - i

/-- `peel_num!($bcs, $len, $bits)` with `$T` of `t` bits. -/
def peelNum (t len bits : Nat) : Peel Nat := do
  assertLength len
  peelNumLoop t bits 0 0

/-- `peel_u16`. -/
def peelU16 : Peel Nat := peelNum 16 2 16

/-- `peel_u32`. -/
def peelU32 : Peel Nat := peelNum 32 4 32

/-- `peel_u64`. -/
def peelU64 : Peel Nat := peelNum 64 8 64

/-- `peel_u128`. -/
def peelU128 : Peel Nat := peelNum 128 16 128

/-- `peel_u256`. -/
def peelU256 : Peel Nat := peelNum 256 32 256

/-- The loop of `peel_vec_length`: the low seven bits of the next byte go into `total` shifted
left by `shift`, until a byte has its high bit clear. `len` bytes are read so far; it is at most
four when it is incremented, so the increment is plain. -/
def peelVecLengthLoop (total shift len : Nat) : Peel Nat :=
  if h : len ≤ 4 then do
    let byte ← arith (cast 64 (← popBack).toNat)
    let total := total ||| (← arith (shl 64 (byte &&& 0x7f) shift))
    if byte &&& 0x80 = 0 then pure total
    else peelVecLengthLoop total (← arith (add 8 shift 7)) (len + 1)
  else throw (.bcs .eLenOutOfRange)
termination_by 5 - len

/-- `peel_vec_length`. -/
def peelVecLength : Peel Nat := peelVecLengthLoop 0 0 0

/-- `peel_vec!($bcs, $peel)`. -/
def peelVec {α : Type} (peel : Peel α) : Peel (List α) := do
  tabulate (← peelVecLength) fun _ => peel

/-- `peel_vec_address`. -/
def peelVecAddress : Peel (List Address) := peelVec peelAddress

/-- `peel_vec_bool`. -/
def peelVecBool : Peel (List Bool) := peelVec peelBool

/-- `peel_vec_u8`. -/
def peelVecU8 : Peel (List UInt8) := peelVec peelU8

/-- `peel_vec_vec_u8`. -/
def peelVecVecU8 : Peel (List (List UInt8)) := peelVec peelVecU8

/-- `peel_vec_u16`. -/
def peelVecU16 : Peel (List Nat) := peelVec peelU16

/-- `peel_vec_u32`. -/
def peelVecU32 : Peel (List Nat) := peelVec peelU32

/-- `peel_vec_u64`. -/
def peelVecU64 : Peel (List Nat) := peelVec peelU64

/-- `peel_vec_u128`. -/
def peelVecU128 : Peel (List Nat) := peelVec peelU128

/-- `peel_vec_u256`. -/
def peelVecU256 : Peel (List Nat) := peelVec peelU256

/-- `peel_enum_tag`: a length read as the tag of an enum variant, which must fit a `u32`. -/
def peelEnumTag : Peel Nat := do
  let tag ← peelVecLength
  moveAssert (tag ≤ maxValue 32) .eOutOfRange
  arith (cast 32 tag)

/-- `peel_option!($bcs, $peel)`. -/
def peelOption {α : Type} (peel : Peel α) : Peel (Option α) := do
  if (← peelBool) then some <$> peel else pure none

/-- `peel_option_address`. -/
def peelOptionAddress : Peel (Option Address) := peelOption peelAddress

/-- `peel_option_bool`. -/
def peelOptionBool : Peel (Option Bool) := peelOption peelBool

/-- `peel_option_u8`. -/
def peelOptionU8 : Peel (Option UInt8) := peelOption peelU8

/-- `peel_option_u16`. -/
def peelOptionU16 : Peel (Option Nat) := peelOption peelU16

/-- `peel_option_u32`. -/
def peelOptionU32 : Peel (Option Nat) := peelOption peelU32

/-- `peel_option_u64`. -/
def peelOptionU64 : Peel (Option Nat) := peelOption peelU64

/-- `peel_option_u128`. -/
def peelOptionU128 : Peel (Option Nat) := peelOption peelU128

/-- `peel_option_u256`. -/
def peelOptionU256 : Peel (Option Nat) := peelOption peelU256

/-! ### The format -/

/-- ULEB128: seven bits a byte, the least significant first, the high bit set on every byte but
the last. -/
def uleb128 (n : Nat) : List UInt8 :=
  if n < 128 then [n.toUInt8] else (n % 128 + 128).toUInt8 :: uleb128 (n / 128)
termination_by n
decreasing_by omega

/-- The types whose values the peel functions read. -/
inductive Ty where
  | bool
  | u8
  | u16
  | u32
  | u64
  | u128
  | u256
  | address
  | vector (t : Ty)
  | option (t : Ty)
  deriving DecidableEq, Repr

/-- Values of those types. -/
inductive Value where
  | bool (b : Bool)
  | num (x : Nat)
  | address (a : Address)
  | vector (vs : List Value)
  | option (v : Option Value)

/-- `v` is a value of type `t`: numbers are below the bound of their type, and vectors are
shorter than `2 ^ 35`, the longest that a ULEB128 length of five bytes counts. -/
def HasType : Ty → Value → Prop
  | .bool, .bool _ => True
  | .u8, .num x => x < 2 ^ 8
  | .u16, .num x => x < 2 ^ 16
  | .u32, .num x => x < 2 ^ 32
  | .u64, .num x => x < 2 ^ 64
  | .u128, .num x => x < 2 ^ 128
  | .u256, .num x => x < 2 ^ 256
  | .address, .address _ => True
  | .vector t, .vector vs => vs.length < 2 ^ 35 ∧ ∀ v ∈ vs, HasType t v
  | .option _, .option none => True
  | .option t, .option (some v) => HasType t v
  | _, _ => False

/-- The BCS bytes of a value of type `t`: an address as its bytes, a bool as `0` or `1`, a number
as its little-endian bytes, a vector as the ULEB128 of its length and then its elements, an
option as the bool of whether it holds a value and then the value. -/
def serialize : Ty → Value → List UInt8
  | .bool, .bool b => [if b then 1 else 0]
  | .u8, .num x => [x.toUInt8]
  | .u16, .num x => Bytes.leBytes 2 x
  | .u32, .num x => Bytes.leBytes 4 x
  | .u64, .num x => Bytes.leBytes 8 x
  | .u128, .num x => Bytes.leBytes 16 x
  | .u256, .num x => Bytes.leBytes 32 x
  | .address, .address a => a.bytes
  | .vector t, .vector vs => uleb128 vs.length ++ vs.flatMap (serialize t)
  | .option _, .option none => [0]
  | .option t, .option (some v) => 1 :: serialize t v
  | _, _ => []

/-- The reader of a value of type `t` that Move code composes from the peel functions, as
`bcs.peel_vec!(|bcs| bcs.peel_option!(|bcs| bcs.peel_u64()))` reads a `vector<Option<u64>>`. -/
def peelTy : Ty → Peel Value
  | .bool => .bool <$> peelBool
  | .u8 => (fun b => .num b.toNat) <$> peelU8
  | .u16 => .num <$> peelU16
  | .u32 => .num <$> peelU32
  | .u64 => .num <$> peelU64
  | .u128 => .num <$> peelU128
  | .u256 => .num <$> peelU256
  | .address => .address <$> peelAddress
  | .vector t => .vector <$> peelVec (peelTy t)
  | .option t => .option <$> peelOption (peelTy t)

/-! ### One byte at a time -/

section Bytes

variable {α : Type}

theorem popBack_new_cons (b : UInt8) (rest : List UInt8) :
    popBack.run (new (b :: rest)) = .ok (b, new rest) := by
  simp [StateT.run, popBack, new]

/-- What `pop_back` reads is the first byte of the stream. -/
theorem popBack_new_eq_ok {l : List UInt8} {b : UInt8} {bcs : BCS}
    (h : popBack.run (new l) = .ok (b, bcs)) : ∃ rest, l = b :: rest ∧ bcs = new rest := by
  cases l with
  | nil => cases h
  | cons b' rest =>
    rw [popBack_new_cons] at h
    obtain ⟨rfl, rfl⟩ := Prod.mk.inj (Except.ok.inj h)
    exact ⟨rest, rfl, rfl⟩

theorem extends_popBack : Extends stream popBack := by
  intro l b l' h q
  obtain ⟨rest, rfl, hs⟩ := popBack_new_eq_ok h
  have hl' : l' = rest := stream.injective hs
  subst hl'
  exact popBack_new_cons b (l' ++ q)

@[simp] theorem bytesLength_run (bcs : BCS) : bytesLength.run bcs = .ok (bcs.bytes.length, bcs) :=
  rfl

theorem assertLength_of_le {len : Nat} {l : List UInt8} (h : len ≤ l.length) :
    (assertLength len).run (new l) = .ok ((), new l) := by
  simp [assertLength, moveAssert, new, h]

theorem assertLength_of_lt {len : Nat} {l : List UInt8} (h : l.length < len) :
    (assertLength len).run (new l) = .error (.bcs .eOutOfRange) := by
  simp [assertLength, moveAssert, new, Nat.not_le.2 h]

/-- The check passes on a stream exactly when it has `len` bytes, so also with more after them. -/
theorem extends_assertLength (len : Nat) : Extends stream (assertLength len) := by
  intro l u l' h q
  simp only [stream_apply] at h ⊢
  by_cases hl : len ≤ l.length
  · rw [assertLength_of_le hl] at h
    obtain ⟨-, hs⟩ := Prod.ext_iff.1 (Except.ok.inj h)
    have hl' : l = l' := stream.injective hs
    subst hl'
    exact assertLength_of_le (by simp; omega)
  · rw [assertLength_of_lt (by omega)] at h
    cases h

@[simp] theorem arith_ok (v : Nat) : arith (.ok v) = pure v := rfl

theorem extends_arith (x : Except (MoveArith.Abort Empty) Nat) : Extends stream (arith x) := by
  cases x with
  | ok v => exact extends_pure v
  | error err => exact extends_throw _

theorem yields_arith {x : Except (MoveArith.Abort Empty) Nat} {P : Nat → Prop}
    (h : ∀ v, x = .ok v → P v) : Yields (arith x) P := by
  cases x with
  | ok v => exact yields_pure (h v rfl)
  | error err => exact yields_throw _

theorem peelU8_new_cons (b : UInt8) (rest : List UInt8) :
    peelU8.run (new (b :: rest)) = .ok (b, new rest) :=
  run_bind_of_eq_ok (assertLength_of_le (by simp)) (popBack_new_cons b rest)

theorem extends_peelU8 : Extends stream peelU8 :=
  (extends_assertLength 1).bind fun _ => extends_popBack

theorem peelBool_new_cons (b : UInt8) (rest : List UInt8) :
    peelBool.run (new (b :: rest)) =
      if b = 0 then .ok (false, new rest)
      else if b = 1 then .ok (true, new rest)
      else .error (.bcs .eNotBool) := by
  rw [peelBool, StateT.run_bind, peelU8_new_cons, Except.ok_bind]
  split_ifs <;> rfl

theorem extends_peelBool : Extends stream peelBool := by
  refine extends_peelU8.bind fun value => ?_
  split_ifs
  · exact extends_pure false
  · exact extends_pure true
  · exact extends_throw _

/-- `tabulate!` of a function that ignores its index repeats a reader: the loop from `i` pushes
`n - i` more values onto `v`. -/
theorem tabulateLoop_eq_readN (r : Peel α) (n i : Nat) (v : List α) :
    tabulateLoop n (fun _ => r) i v = (v ++ ·) <$> readN r (n - i) := by
  induction h : n - i generalizing i v with
  | zero =>
    rw [tabulateLoop, if_neg (by omega)]
    simp [readN]
  | succ k ih =>
    rw [tabulateLoop, if_pos (by omega), readN]
    simp only [ih (i + 1) _ (by omega), map_bind, bind_pure_comp, Functor.map_map,
      List.append_assoc, List.singleton_append]

theorem tabulate_eq_readN (r : Peel α) (n : Nat) : tabulate n (fun _ => r) = readN r n := by
  rw [tabulate, tabulateLoop_eq_readN, Nat.sub_zero]
  simp

end Bytes

/-! ### Numbers -/

section Numbers

/-- A digit of `k` bits shifted past the `i` bits of a smaller number adds `k` bits to it. -/
theorem add_mul_two_pow_lt {value d i k : Nat} (hv : value < 2 ^ i) (hd : d < 2 ^ k) :
    value + d * 2 ^ i < 2 ^ (i + k) := by
  have h : (d + 1) * 2 ^ i ≤ 2 ^ k * 2 ^ i := Nat.mul_le_mul_right _ (by omega)
  rw [pow_add]
  linarith

/-- The loop of `peel_num!` reads `k` bytes as a little-endian number: it adds the number they
encode to `value`, past its `i` bits. The bytes fit `$T` shifted by up to `bits - 8`, and the
shift fits a `u8`. -/
theorem peelNumLoop_leBytes {t bits : Nat} (ht : bits ≤ t) (hb : bits ≤ 256) :
    ∀ (k value i x : Nat) (rest : List UInt8), bits = i + 8 * k → value < 2 ^ i →
      x < 256 ^ k →
      (peelNumLoop t bits value i).run (new (Bytes.leBytes k x ++ rest)) =
        .ok (value + 2 ^ i * x, new rest) := by
  intro k
  induction k with
  | zero =>
    intro value i x rest hbits _ hx
    have hx0 : x = 0 := by simpa using hx
    rw [peelNumLoop, if_neg (by omega), hx0]
    simp [Bytes.leBytes]
  | succ k ih =>
    intro value i x rest hbits hv hx
    have hbyte : x % 256 < 256 := Nat.mod_lt _ (by norm_num)
    have hwide : 2 ^ (i + 8) ≤ 2 ^ t := Nat.pow_le_pow_right (by norm_num) (by omega)
    have hsum : value + x % 256 * 2 ^ i < 2 ^ (i + 8) := add_mul_two_pow_lt hv hbyte
    have h256 : 256 ≤ 2 ^ t :=
      calc 256 = 2 ^ 8 := by norm_num
        _ ≤ 2 ^ t := Nat.pow_le_pow_right (by norm_num) (by omega)
    have hcast : x % 256 < 2 ^ t := by omega
    have hshl : x % 256 * 2 ^ i < 2 ^ t := by omega
    have hnext : x / 256 < 256 ^ k := by rw [pow_succ] at hx; omega
    -- the rest of the bytes go past the `i + 8` bits read so far
    have hrec := ih (value + x % 256 * 2 ^ i) (i + 8) (x / 256) rest (by omega) hsum hnext
    have hval : value + x % 256 * 2 ^ i + 2 ^ (i + 8) * (x / 256) = value + 2 ^ i * x := by
      rw [pow_add]
      have hx' : x = x % 256 + 256 * (x / 256) := (Nat.mod_add_div x 256).symm
      conv_rhs => rw [hx']
      ring
    rw [peelNumLoop, if_pos (by omega)]
    simp only [Bytes.leBytes, List.cons_append, StateT.run_bind, popBack_new_cons, Except.ok_bind,
      UInt8.toNat_ofNat', Nat.mod_mod, cast_of_lt hcast, cast_of_lt (by omega : i < 2 ^ 8),
      shl_of_lt (by omega) hshl, add_of_lt (lt_of_lt_of_le hsum hwide), arith_ok,
      StateT.run_pure, pure_bind]
    rw [hrec, hval]

/-- `peel_num!` reads the `len` little-endian bytes of a number, at every width of `$T` whose
`bits` are its `len` bytes. -/
theorem peelNum_leBytes {t len bits x : Nat} (hbits : bits = 8 * len) (ht : bits ≤ t)
    (hb : bits ≤ 256) (hx : x < 256 ^ len) (rest : List UInt8) :
    (peelNum t len bits).run (new (Bytes.leBytes len x ++ rest)) = .ok (x, new rest) := by
  have hloop := peelNumLoop_leBytes ht hb len 0 0 x rest (by omega) (by norm_num) hx
  rw [Nat.pow_zero, Nat.one_mul, Nat.zero_add] at hloop
  exact run_bind_of_eq_ok (assertLength_of_le (by simp)) hloop

theorem extends_peelNumLoop (t bits value i : Nat) :
    Extends stream (peelNumLoop t bits value i) := by
  fun_induction peelNumLoop t bits value i with
  | case1 value i hi ih =>
    refine extends_popBack.bind fun b => (extends_arith _).bind fun byte => ?_
    refine (extends_arith _).bind fun s => (extends_arith _).bind fun sh => ?_
    exact (extends_arith _).bind fun value' => ih value'
  | case2 value i hi => exact extends_pure value

theorem extends_peelNum (t len bits : Nat) : Extends stream (peelNum t len bits) :=
  (extends_assertLength len).bind fun _ => extends_peelNumLoop t bits 0 0

/-- The checked additions of `peel_num!` keep its value in `$T`. -/
theorem yields_peelNumLoop {t bits value i : Nat} (hv : value < 2 ^ t) :
    Yields (peelNumLoop t bits value i) (· < 2 ^ t) := by
  fun_induction peelNumLoop t bits value i with
  | case1 value i hi ih =>
    refine yields_bind fun b => yields_bind fun byte => yields_bind fun s => yields_bind fun sh => ?_
    exact Yields.bind (yields_arith fun v hv' => (add_eq_ok hv').1 ▸ (add_eq_ok hv').2)
      fun value' hv'' => ih value' hv''
  | case2 value i hi => exact yields_pure hv

theorem yields_peelNum (t len bits : Nat) : Yields (peelNum t len bits) (· < 2 ^ t) :=
  yields_bind fun _ => yields_peelNumLoop (Nat.two_pow_pos t)

end Numbers

/-! ### Lengths -/

section Lengths

/-- The ULEB128 encodings of `n`, minimal or not: every byte but the last has its high bit set,
and the low seven bits of the bytes, the least significant first, are the digits of `n` in base
`128`. -/
inductive IsUleb : List UInt8 → Nat → Prop where
  | last {d : Nat} (hd : d < 128) : IsUleb [d.toUInt8] d
  | cont {d n : Nat} {bs : List UInt8} (hd : d < 128) (h : IsUleb bs n) :
      IsUleb ((d + 128).toUInt8 :: bs) (d + 128 * n)

/-- The minimal encoding is one of them. -/
theorem isUleb_uleb128 (n : Nat) : IsUleb (uleb128 n) n := by
  induction n using Nat.strongRecOn with
  | ind n ih =>
    rw [uleb128]
    split
    · next h => exact .last h
    · next h =>
      have hcont := IsUleb.cont (Nat.mod_lt n (by norm_num)) (ih (n / 128) (by omega))
      rwa [Nat.mod_add_div] at hcont

theorem length_uleb128_le {n : Nat} (k : Nat) (h : n < 128 ^ (k + 1)) :
    (uleb128 n).length ≤ k + 1 := by
  induction k generalizing n with
  | zero => rw [uleb128, if_pos (by simpa using h)]; rfl
  | succ k ih =>
    rw [uleb128]
    split
    · simp
    · have hn : n / 128 < 128 ^ (k + 1) := by rw [pow_succ] at h; omega
      simpa using ih hn

theorem length_uleb128_le_five {n : Nat} (h : n < 2 ^ 35) : (uleb128 n).length ≤ 5 :=
  length_uleb128_le 4 (by norm_num at h ⊢; omega)

theorem IsUleb.lt {bs : List UInt8} {n : Nat} (h : IsUleb bs n) : n < 128 ^ bs.length := by
  induction h with
  | last hd => simpa using hd
  | cont hd _ ih =>
    rw [List.length_cons, pow_succ]
    omega

theorem and_0x7f (b : Nat) : b &&& 0x7f = b % 128 := by
  simpa using Nat.and_two_pow_sub_one_eq_mod b 7

set_option maxRecDepth 8000 in
theorem and_0x80_eq_zero_iff {b : Nat} (hb : b < 256) : b &&& 0x80 = 0 ↔ b < 128 := by
  revert b
  decide +kernel

/-- The low bits a group adds to the total are the bits above those already there. -/
theorem or_mul_two_pow {total d s : Nat} (h : total < 2 ^ s) :
    total ||| d * 2 ^ s = total + 2 ^ s * d := by
  rw [Nat.or_comm, Nat.mul_comm, ← Nat.two_pow_add_eq_or_of_lt h, Nat.add_comm]

/-- A group of seven bits shifted by at most `28` fits a `u64`. -/
theorem digit_shift_lt {d s : Nat} (hd : d < 128) (hs : s ≤ 28) : d * 2 ^ s < 2 ^ 64 :=
  calc d * 2 ^ s < 2 ^ (s + 7) := by
        simpa using add_mul_two_pow_lt (Nat.two_pow_pos s) (by simpa using hd : d < 2 ^ 7)
    _ ≤ 2 ^ 64 := Nat.pow_le_pow_right (by norm_num) (by omega)

/-- One round of the loop of `peel_vec_length` on the next byte `b`, with `len` bytes read: the
low seven bits of `b` go into the total past its `7 * len` bits, and the loop stops when `b` is
below `128`. -/
theorem peelVecLengthLoop_cons {total len : Nat} (hlen : len ≤ 4) (htotal : total < 2 ^ (7 * len))
    (b : UInt8) (l : List UInt8) :
    (peelVecLengthLoop total (7 * len) len).run (new (b :: l)) =
      if b.toNat < 128 then .ok (total + 2 ^ (7 * len) * b.toNat, new l)
      else (peelVecLengthLoop (total + 2 ^ (7 * len) * (b.toNat % 128)) (7 * (len + 1))
        (len + 1)).run (new l) := by
  have hb : b.toNat < 256 := b.toNat_lt
  have hdigit : b.toNat % 128 < 128 := Nat.mod_lt _ (by norm_num)
  rw [peelVecLengthLoop, dif_pos hlen]
  simp only [StateT.run_bind, popBack_new_cons, Except.ok_bind,
    cast_of_lt (by omega : b.toNat < 2 ^ 64), arith_ok, StateT.run_pure, pure_bind, and_0x7f,
    shl_of_lt (by omega : 7 * len < 64) (digit_shift_lt hdigit (by omega)),
    or_mul_two_pow htotal, and_0x80_eq_zero_iff hb]
  split
  · next hlow =>
    rw [Nat.mod_eq_of_lt hlow]
    rfl
  · rw [add_of_lt (by omega : 7 * len + 7 < 2 ^ 8), arith_ok, pure_bind,
      show 7 * len + 7 = 7 * (len + 1) by ring]

theorem peelVecLengthLoop_nil {total len : Nat} (hlen : len ≤ 4) :
    (peelVecLengthLoop total (7 * len) len).run (new []) = .error .popEmptyVector := by
  rw [peelVecLengthLoop, dif_pos hlen]
  rfl

/-- The total after a group of seven bits holds `7` bits more. -/
theorem add_digit_lt {total d len : Nat} (htotal : total < 2 ^ (7 * len)) (hd : d < 128) :
    total + 2 ^ (7 * len) * d < 2 ^ (7 * (len + 1)) := by
  rw [Nat.mul_comm (2 ^ _), Nat.mul_succ]
  exact add_mul_two_pow_lt htotal (by simpa using hd)

/-- The loop of `peel_vec_length` reads every ULEB128 encoding that fits the bytes it has left
to read: with `len` bytes read, it adds the length the encoding counts past their `7 * len`
bits. -/
theorem peelVecLengthLoop_isUleb {bs : List UInt8} {n : Nat} (h : IsUleb bs n) :
    ∀ (total len : Nat) (rest : List UInt8), bs.length + len ≤ 5 → total < 2 ^ (7 * len) →
      (peelVecLengthLoop total (7 * len) len).run (new (bs ++ rest)) =
        .ok (total + 2 ^ (7 * len) * n, new rest) := by
  induction h with
  | @last d hd =>
    intro total len rest hlen htotal
    simp only [List.length_singleton] at hlen
    have hbyte : d.toUInt8.toNat = d := by simpa using Nat.mod_eq_of_lt (by omega : d < 256)
    rw [List.singleton_append, peelVecLengthLoop_cons (by omega) htotal, hbyte, if_pos hd]
  | @cont d m bs hd _ ih =>
    intro total len rest hlen htotal
    simp only [List.length_cons] at hlen
    have hbyte : (d + 128).toUInt8.toNat = d + 128 := by
      simpa using Nat.mod_eq_of_lt (by omega : d + 128 < 256)
    -- the rest of the encoding goes past the `7 * (len + 1)` bits read so far
    have hrec := ih (total + 2 ^ (7 * len) * d) (len + 1) rest (by omega) (add_digit_lt htotal hd)
    have hval : total + 2 ^ (7 * len) * d + 2 ^ (7 * (len + 1)) * m =
        total + 2 ^ (7 * len) * (d + 128 * m) := by
      rw [Nat.mul_succ, pow_add]
      ring
    rw [List.cons_append, peelVecLengthLoop_cons (by omega) htotal, hbyte, if_neg (by omega),
      show (d + 128) % 128 = d by omega, hrec, hval]

/-- What the loop of `peel_vec_length` does on any stream, with `len` bytes read: it reads a
ULEB128 encoding of at most `5 - len` bytes, adding the length it counts to `total`, or it
aborts with `ELenOutOfRange` after five bytes, or with the error of `pop_back` when the stream
ends inside the length. Its arithmetic never fails. -/
theorem peelVecLengthLoop_holds (k : Nat) : ∀ (len total : Nat) (l : List UInt8), len + k = 5 →
    total < 2 ^ (7 * len) →
    Except.Holds (fun e => e = .bcs .eLenOutOfRange ∨ e = .popEmptyVector)
      (fun p => ∃ bs rest n, l = bs ++ rest ∧ p.2 = new rest ∧ IsUleb bs n ∧
        bs.length + len ≤ 5 ∧ p.1 = total + 2 ^ (7 * len) * n)
      ((peelVecLengthLoop total (7 * len) len).run (new l)) := by
  induction k with
  | zero =>
    intro len total l hk _
    rw [peelVecLengthLoop, dif_neg (by omega)]
    exact .inl rfl
  | succ k ih =>
    intro len total l hk htotal
    cases l with
    | nil =>
      rw [peelVecLengthLoop_nil (by omega)]
      exact .inr rfl
    | cons b l =>
      have hb : b.toNat < 256 := b.toNat_lt
      have hdigit : b.toNat % 128 < 128 := Nat.mod_lt _ (by norm_num)
      rw [peelVecLengthLoop_cons (by omega) htotal]
      split
      · -- the last byte of the length
        next hlow =>
        refine ⟨[b], l, b.toNat, rfl, rfl, ?_, by simp; omega, rfl⟩
        simpa using IsUleb.last hlow
      · -- a byte with its high bit set: the loop goes on with one more byte read
        next hhigh =>
        refine (ih (len + 1) _ l (by omega) (add_digit_lt htotal hdigit)).mono ?_ fun _ he => he
        rintro p ⟨bs, rest, n, rfl, hp, hbs, hlen, hval⟩
        have hbyte : (b.toNat % 128 + 128).toUInt8 = b := by
          rw [show b.toNat % 128 + 128 = b.toNat by omega]
          exact UInt8.ofNat_toNat
        refine ⟨b :: bs, rest, b.toNat % 128 + 128 * n, rfl, hp, ?_, by simp; omega, ?_⟩
        · simpa [hbyte] using IsUleb.cont hdigit hbs
        · rw [hval, Nat.mul_succ, pow_add]
          ring

/-- `peel_vec_length` reads every ULEB128 encoding of at most five bytes, minimal or not. -/
theorem peelVecLength_isUleb {bs : List UInt8} {n : Nat} (h : IsUleb bs n) (hlen : bs.length ≤ 5)
    (rest : List UInt8) : peelVecLength.run (new (bs ++ rest)) = .ok (n, new rest) := by
  have hloop := peelVecLengthLoop_isUleb h 0 0 rest (by omega) (by norm_num)
  rwa [Nat.mul_zero, Nat.pow_zero, Nat.one_mul, Nat.zero_add] at hloop

/-- What `peel_vec_length` does on any stream: it reads a ULEB128 encoding of at most five bytes,
or aborts with `ELenOutOfRange` or with the error of `pop_back`. -/
theorem peelVecLength_holds (l : List UInt8) :
    Except.Holds (fun e => e = .bcs .eLenOutOfRange ∨ e = .popEmptyVector)
      (fun p => ∃ bs rest, l = bs ++ rest ∧ p.2 = new rest ∧ IsUleb bs p.1 ∧ bs.length ≤ 5)
      (peelVecLength.run (new l)) := by
  refine (peelVecLengthLoop_holds 5 0 0 l rfl (by norm_num)).mono ?_ fun _ he => he
  rintro p ⟨bs, rest, n, hl, hp, hbs, hlen, hval⟩
  rw [Nat.mul_zero, Nat.pow_zero, Nat.one_mul, Nat.zero_add] at hval
  exact ⟨bs, rest, hl, hp, hval ▸ hbs, by omega⟩

theorem peelVecLength_eq_ok {l rest : List UInt8} {n : Nat}
    (h : peelVecLength.run (new l) = .ok (n, new rest)) :
    ∃ bs, l = bs ++ rest ∧ IsUleb bs n ∧ bs.length ≤ 5 := by
  have hholds := peelVecLength_holds l
  rw [h] at hholds
  obtain ⟨bs, rest', hl, hrest, hbs, hlen⟩ := hholds
  have hrest' : rest = rest' := stream.injective hrest
  subst hrest'
  exact ⟨bs, hl, hbs, hlen⟩

theorem extends_peelVecLength : Extends stream peelVecLength := by
  intro l n l' h q
  obtain ⟨bs, rfl, hbs, hlen⟩ := peelVecLength_eq_ok h
  rw [stream_apply, List.append_assoc]
  exact peelVecLength_isUleb hbs hlen _

theorem yields_peelVecLength : Yields peelVecLength (· < 2 ^ 35) := by
  intro bcs n bcs' h
  have hholds := peelVecLength_holds (intoRemainderBytes bcs)
  rw [show new (intoRemainderBytes bcs) = bcs from stream.apply_symm_apply bcs, h] at hholds
  obtain ⟨bs, rest, -, -, hbs, hlen⟩ := hholds
  calc n < 128 ^ bs.length := hbs.lt
    _ ≤ 128 ^ 5 := Nat.pow_le_pow_right (by norm_num) hlen
    _ = 2 ^ 35 := by norm_num

end Lengths

/-! ### Vectors, options and addresses -/

section Compound

variable {α : Type}

theorem readsBack_popBack : ReadsBack stream popBack (fun b => [b]) fun _ => True :=
  fun b _ rest => popBack_new_cons b rest

theorem peelVec_eq (peel : Peel α) : peelVec peel = peelVecLength >>= readN peel := by
  simp only [peelVec, tabulate_eq_readN]

/-- `peel_vec!` reads back a vector of what its peel reads back, after the ULEB128 of its
length. -/
theorem peelVec_run {peel : Peel α} {enc : α → List UInt8} {P : α → Prop}
    (h : ReadsBack stream peel enc P) {xs : List α} (hlen : xs.length < 2 ^ 35)
    (hxs : ∀ x ∈ xs, P x) (rest : List UInt8) :
    (peelVec peel).run (new (uleb128 xs.length ++ xs.flatMap enc ++ rest)) = .ok (xs, new rest) := by
  rw [peelVec_eq, List.append_assoc]
  exact run_bind_of_eq_ok
    (peelVecLength_isUleb (isUleb_uleb128 _) (length_uleb128_le_five hlen) _) (h.run_readN hxs rest)

theorem extends_peelVec {peel : Peel α} (h : Extends stream peel) :
    Extends stream (peelVec peel) := by
  rw [peelVec_eq]
  exact extends_peelVecLength.bind fun n => h.readN n

theorem yields_peelVec {peel : Peel α} {P : α → Prop} (h : Yields peel P) :
    Yields (peelVec peel) fun xs => xs.length < 2 ^ 35 ∧ ∀ x ∈ xs, P x := by
  rw [peelVec_eq]
  refine yields_peelVecLength.bind fun n hn => (h.readN n).mono ?_
  rintro xs ⟨hlen, hall⟩
  exact ⟨hlen ▸ hn, hall⟩

theorem peelOption_none (peel : Peel α) (rest : List UInt8) :
    (peelOption peel).run (new (0 :: rest)) = .ok (none, new rest) := by
  rw [peelOption, StateT.run_bind, peelBool_new_cons, if_pos rfl, Except.ok_bind]
  rfl

/-- `peel_option!` reads back an option of what its peel reads back, after the bool `1`. -/
theorem peelOption_some {peel : Peel α} {x : α} {l rest : List UInt8}
    (h : peel.run (new (l ++ rest)) = .ok (x, new rest)) :
    (peelOption peel).run (new (1 :: l ++ rest)) = .ok (some x, new rest) := by
  rw [peelOption, StateT.run_bind, List.cons_append, peelBool_new_cons, if_neg (by decide),
    if_pos rfl, Except.ok_bind]
  exact run_map_of_eq_ok some h

theorem extends_peelOption {peel : Peel α} (h : Extends stream peel) :
    Extends stream (peelOption peel) := by
  refine extends_peelBool.bind fun b => ?_
  split
  · exact h.map some
  · exact extends_pure none

theorem yields_peelOption {peel : Peel α} {P : α → Prop} (h : Yields peel P) :
    Yields (peelOption peel) fun o => ∀ x, o = some x → P x := by
  refine yields_bind fun b => ?_
  split
  · refine h.map ?_
    rintro x hx y hy
    cases hy
    exact hx
  · exact yields_pure (by simp)

/-- `peel_address` reads back the thirty-two bytes of an address. -/
theorem peelAddress_bytes (a : Address) (rest : List UInt8) :
    peelAddress.run (new (a.bytes ++ rest)) = .ok (a, new rest) := by
  have hread : (readN popBack addressLength).run (new (a.bytes ++ rest)) = .ok (a.bytes, new rest) := by
    have hrun : (readN popBack a.bytes.length).run (new (a.bytes.flatMap (fun b => [b]) ++ rest)) =
        .ok (a.bytes, new rest) :=
      readsBack_popBack.run_readN (fun _ _ => trivial) rest
    rwa [List.flatMap_singleton', a.length_bytes] at hrun
  have hlift : (StateT.lift (Address.fromBytes a.bytes) : Peel Address).run (new rest) =
      .ok (a, new rest) := by
    rw [StateT.run_lift, Address.fromBytes_bytes]
    rfl
  rw [peelAddress, tabulate_eq_readN]
  exact run_bind_of_eq_ok (assertLength_of_le (by simp [a.length_bytes]))
    (run_bind_of_eq_ok hread hlift)

theorem extends_peelAddress : Extends stream peelAddress := by
  rw [peelAddress, tabulate_eq_readN]
  exact (extends_assertLength _).bind fun _ =>
    (extends_popBack.readN _).bind fun bytes => extends_lift _

end Compound

end Bcs

end Rtd
