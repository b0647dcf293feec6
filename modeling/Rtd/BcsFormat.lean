import Rtd.Bcs
import Mathlib

/-!
The format that `rtd::bcs` reads, over every type of value it reads. For each type `t`, the
reader `peelTy t` composed from the peel functions reads back `serialize t v` for every value
`v` of type `t`, whatever bytes follow; every value it reads is of type `t`; what it reads from
some bytes it reads the same way when more bytes follow; and it never reads a value from a
truncated encoding. Each is proved by induction on the type, one case for each constructor,
from the lemmas of `Rtd.Bcs` for the peel function of that constructor.

The length of a vector is where the reader is more liberal than the format: `peel_vec_length`
reads every ULEB128 encoding of at most five bytes, minimal or not, and nothing else.
-/

set_option autoImplicit false

namespace Rtd

namespace Bcs

open MoveArith StreamCodec

/-! ### The readers of the types -/

theorem peelBool_bool (b : Bool) (rest : List UInt8) :
    peelBool.run (new ((if b then 1 else 0) :: rest)) = .ok (b, new rest) := by
  cases b <;> simp [peelBool_new_cons]

/-- The readers of the five wider numbers, one for each width of `peel_num!`. -/
theorem peelNum_num {len bits x : Nat} (hbits : bits = 8 * len) (hb : bits ≤ 256)
    (hx : x < 2 ^ bits) (rest : List UInt8) :
    (Value.num <$> peelNum bits len bits).run (new (Bytes.leBytes len x ++ rest)) =
      .ok (.num x, new rest) := by
  have hx' : x < 256 ^ len := by
    rw [show (256 : Nat) = 2 ^ 8 by norm_num, ← pow_mul, ← hbits]
    exact hx
  exact run_map_of_eq_ok _ (peelNum_leBytes hbits le_rfl hb hx' rest)

/-- `peelTy t` reads back the bytes of every value of type `t`. -/
theorem readsBack_peelTy (t : Ty) : ReadsBack stream (peelTy t) (serialize t) (HasType t) := by
  induction t with
  | bool =>
    rintro (b | x | a | vs | o) hv rest <;> simp only [HasType] at hv
    exact run_map_of_eq_ok _ (peelBool_bool b rest)
  | u8 =>
    rintro (b | x | a | vs | o) hv rest <;> simp only [HasType] at hv
    have hx : x.toUInt8.toNat = x := by simpa using Nat.mod_eq_of_lt hv
    have hrun := run_map_of_eq_ok (fun b => Value.num b.toNat) (peelU8_new_cons x.toUInt8 rest)
    rw [hx] at hrun
    exact hrun
  | u16 | u32 | u64 | u128 | u256 =>
    -- the five widths of `peel_num!`, each with its bytes and bits
    rintro (b | x | a | vs | o) hv rest <;> simp only [HasType] at hv
    exact peelNum_num (by norm_num) (by norm_num) hv rest
  | address =>
    rintro (b | x | a | vs | o) hv rest <;> simp only [HasType] at hv
    exact run_map_of_eq_ok _ (peelAddress_bytes a rest)
  | vector t ih =>
    rintro (b | x | a | vs | o) hv rest <;> simp only [HasType] at hv
    exact run_map_of_eq_ok _ (peelVec_run ih hv.1 hv.2 rest)
  | option t ih =>
    rintro (b | x | a | vs | (_ | v)) hv rest <;> simp only [HasType] at hv
    · exact run_map_of_eq_ok _ (peelOption_none _ rest)
    · exact run_map_of_eq_ok _ (peelOption_some (ih v hv rest))

/-- Every value that `peelTy t` reads is of type `t`. -/
theorem yields_peelTy (t : Ty) : Yields (peelTy t) (HasType t) := by
  induction t with
  | bool => exact (yields_true peelBool).map fun _ _ => trivial
  | u8 => exact (yields_true peelU8).map fun b _ => b.toNat_lt
  | u16 | u32 | u64 | u128 | u256 => exact (yields_peelNum _ _ _).map fun _ hx => hx
  | address => exact (yields_true peelAddress).map fun _ _ => trivial
  | vector t ih => exact (yields_peelVec ih).map fun _ hvs => hvs
  | option t ih =>
    refine (yields_peelOption ih).map ?_
    intro o ho
    cases o with
    | none => trivial
    | some v => exact ho v rfl

/-- What `peelTy t` reads does not depend on the bytes after it. -/
theorem extends_peelTy (t : Ty) : Extends stream (peelTy t) := by
  induction t with
  | bool => exact extends_peelBool.map _
  | u8 => exact extends_peelU8.map _
  | u16 | u32 | u64 | u128 | u256 => exact (extends_peelNum _ _ _).map _
  | address => exact extends_peelAddress.map _
  | vector t ih => exact (extends_peelVec ih).map _
  | option t ih => exact (extends_peelOption ih).map _

/-! ### The format -/

/-- For every type and every value of it, the reader of the type reads back the value's BCS
bytes and leaves the bytes after them. -/
theorem peelTy_serialize {t : Ty} {v : Value} (hv : HasType t v) (rest : List UInt8) :
    (peelTy t).run (new (serialize t v ++ rest)) = .ok (v, new rest) :=
  readsBack_peelTy t v hv rest

theorem peelTy_serialize_vectorOptionU16 :
    HasType (.vector (.option .u16)) (.vector [.option (some (.num 300)), .option none]) ∧
      (peelTy (.vector (.option .u16))).run
          (new (serialize (.vector (.option .u16))
            (.vector [.option (some (.num 300)), .option none]) ++ [7])) =
        .ok (.vector [.option (some (.num 300)), .option none], new [7]) := by
  have hv : HasType (.vector (.option .u16))
      (.vector [.option (some (.num 300)), .option none]) := by
    simp [HasType]
  exact ⟨hv, peelTy_serialize hv [7]⟩

/-- Whatever `peelTy t` reads is a value of type `t`: numbers within their width, vectors
shorter than `2 ^ 35`. -/
theorem peelTy_hasType {t : Ty} {bcs bcs' : BCS} {v : Value}
    (h : (peelTy t).run bcs = .ok (v, bcs')) : HasType t v :=
  yields_peelTy t bcs v bcs' h

theorem peelTy_hasType_u16 :
    (peelTy .u16).run (new ([1, 2] ++ [])) = .ok (.num 513, new []) ∧ HasType .u16 (.num 513) := by
  have hrun : (peelTy .u16).run (new ([1, 2] ++ [])) = .ok (.num 513, new []) :=
    readsBack_peelTy .u16 (.num 513) (by simp [HasType]) []
  exact ⟨hrun, peelTy_hasType hrun⟩

/-- What `peelTy t` reads from some bytes it reads the same way when more bytes follow, and it
leaves them after the rest. -/
theorem peelTy_append {t : Ty} {l l' : List UInt8} {v : Value}
    (h : (peelTy t).run (new l) = .ok (v, new l')) (q : List UInt8) :
    (peelTy t).run (new (l ++ q)) = .ok (v, new (l' ++ q)) :=
  extends_peelTy t l v l' h q

theorem peelTy_append_u16 :
    (peelTy .u16).run (new ([1, 2] ++ [9])) = .ok (.num 513, new ([] ++ [9])) :=
  peelTy_append (readsBack_peelTy .u16 (.num 513) (by simp [HasType]) []) [9]

/-- `peelTy t` never reads a value from a proper prefix of an encoding: it aborts. -/
theorem peelTy_truncated {t : Ty} {v : Value} (hv : HasType t v) {p q : List UInt8}
    (hpq : p ++ q = serialize t v) (hq : q ≠ []) :
    ∃ err, (peelTy t).run (new p) = .error err :=
  (readsBack_peelTy t).fails_on_truncation (extends_peelTy t) hv hpq hq

theorem peelTy_truncated_u16 :
    HasType .u16 (.num 513) ∧ [(1 : UInt8)] ++ [2] = serialize .u16 (.num 513) ∧
      ([2] : List UInt8) ≠ [] ∧ ∃ err, (peelTy .u16).run (new [1]) = .error err := by
  have hv : HasType .u16 (.num 513) := by simp [HasType]
  have hpq : [(1 : UInt8)] ++ [2] = serialize .u16 (.num 513) := rfl
  exact ⟨hv, hpq, by simp, peelTy_truncated hv hpq (by simp)⟩

/-! ### Lengths and enum tags -/

/-- `peel_vec_length` reads `n` from a byte string exactly when the string begins with a
ULEB128 encoding of `n`, minimal or not, of at most five bytes. -/
theorem peelVecLength_eq_ok_iff {l rest : List UInt8} {n : Nat} :
    peelVecLength.run (new l) = .ok (n, new rest) ↔
      ∃ bs, l = bs ++ rest ∧ IsUleb bs n ∧ bs.length ≤ 5 := by
  constructor
  · exact peelVecLength_eq_ok
  · rintro ⟨bs, rfl, hbs, hlen⟩
    exact peelVecLength_isUleb hbs hlen rest

/-- `peel_vec_length` aborts only with `ELenOutOfRange` or with the error of `pop_back`, never
with an arithmetic error. -/
theorem peelVecLength_error {l : List UInt8} {e : Abort}
    (h : peelVecLength.run (new l) = .error e) :
    e = .bcs .eLenOutOfRange ∨ e = .popEmptyVector := by
  have hholds := peelVecLength_holds l
  rw [h] at hholds
  exact hholds

theorem peelVecLength_nil : peelVecLength.run (new []) = .error .popEmptyVector := by
  rw [peelVecLength, peelVecLengthLoop, dif_pos (by norm_num)]
  rfl

theorem peelVecLength_error_nil :
    peelVecLength.run (new []) = .error .popEmptyVector ∧
      ((Abort.popEmptyVector = .bcs .eLenOutOfRange) ∨ Abort.popEmptyVector = .popEmptyVector) :=
  ⟨peelVecLength_nil, peelVecLength_error peelVecLength_nil⟩

/-- `peel_enum_tag` reads the tags that fit a `u32`, and aborts with `EOutOfRange` on the longer
ones that `peel_vec_length` reads. -/
theorem peelEnumTag_uleb128 {n : Nat} (hn : n < 2 ^ 35) (rest : List UInt8) :
    peelEnumTag.run (new (uleb128 n ++ rest)) =
      if n < 2 ^ 32 then .ok (n, new rest) else .error (.bcs .eOutOfRange) := by
  have hlen := peelVecLength_isUleb (isUleb_uleb128 n) (length_uleb128_le_five hn) rest
  rw [peelEnumTag, StateT.run_bind, hlen, Except.ok_bind]
  by_cases hfit : n < 2 ^ 32
  · have hle : decide (n ≤ maxValue 32) = true := decide_eq_true (le_maxValue_iff.2 hfit)
    rw [if_pos hfit, StateT.run_bind]
    simp only [moveAssert, hle, if_true, StateT.run_pure, pure_bind, cast_of_lt hfit, arith_ok]
    rfl
  · have hle : decide (n ≤ maxValue 32) = false :=
      decide_eq_false (mt le_maxValue_iff.1 hfit)
    rw [if_neg hfit, StateT.run_bind]
    simp only [moveAssert, hle]
    rfl

theorem peelEnumTag_uleb128_too_large :
    (2 : Nat) ^ 32 < 2 ^ 35 ∧
      peelEnumTag.run (new (uleb128 (2 ^ 32) ++ [])) =
        if (2 : Nat) ^ 32 < 2 ^ 32 then .ok (2 ^ 32, new []) else .error (.bcs .eOutOfRange) :=
  ⟨by norm_num, peelEnumTag_uleb128 (by norm_num) []⟩

end Bcs

end Rtd
