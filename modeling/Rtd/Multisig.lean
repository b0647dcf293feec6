import Rtd.Bytes
import Rtd.Except
import Mathlib

/-!
Multisig authentication (`rtd-types/src/multisig.rs`). A `MultiSig` carries compressed
signatures, a bitmap naming the keys they are for, and the multisig public key: keys with
`u8` weights and a `u16` threshold. `verify_claims` pairs the signatures, in order, with the
set bits of the bitmap from the lowest, and adds up the weights of the keys whose signature
is valid; `combine` builds the bitmap and the signature list from full signatures.

The signature schemes stay abstract (`Scheme`): whether one compressed signature is valid for
a key and the message under the call's parameters, whether zkLogin authenticator bytes parse,
the address of a multisig public key, and the conversions of a full signature. The `u16`
sums wrap, as in a release build. The message digest, the error texts that print keys and
the cached bytes of a `MultiSig` are left out; an error that names a key carries it.
-/

set_option autoImplicit false

namespace Rtd

namespace Multisig

open Bytes

/-- `MAX_SIGNER_IN_MULTISIG`. -/
def maxSignerInMultisig : Nat := 10

/-- `MAX_BITMAP_VALUE`. -/
def maxBitmapValue : UInt16 := 0b1111111111

/-- `CompressedSignature`, over the bytes `B` of a signature or an authenticator. -/
inductive CompressedSignature (B : Type) where
  | ed25519 (bytes : B)
  | secp256k1 (bytes : B)
  | secp256r1 (bytes : B)
  | zkLogin (bytes : B)
  | passkey (bytes : B)
  deriving DecidableEq

/-- `MultiSigPublicKey`: the keys with their weights, and the threshold. -/
structure MultiSigPublicKey (PK : Type) where
  pkMap : List (PK × UInt8)
  threshold : UInt16
  deriving DecidableEq

/-- `MultiSig`, without the bytes it caches. -/
structure MultiSig (PK B : Type) where
  sigs : List (CompressedSignature B)
  bitmap : UInt16
  multisigPk : MultiSigPublicKey PK
  deriving DecidableEq

/-- The fields of `VerifyParams` that multisig verification reads. -/
structure VerifyParams where
  acceptZkloginInMultisig : Bool
  acceptPasskeyInMultisig : Bool
  additionalMultisigChecks : Bool
  deriving DecidableEq

inductive FastCryptoError where
  | invalidInput
  deriving DecidableEq

/-- The errors of `verify_claims` and `combine`. -/
inductive RtdError (PK : Type) where
  | invalidSignature (error : String)
  /-- "Invalid sig for pk=… error=…": the signature paired with the key failed its check. -/
  | invalidSubSignature (pk : PK)
  /-- "Insufficient weight=… threshold=…". -/
  | insufficientWeight (weight threshold : UInt16)
  /-- `IncorrectSigner`, "pk does not exist: …". -/
  | incorrectSigner (pk : PK)
  /-- A failed conversion of a full signature. -/
  | conversion
  deriving DecidableEq

/-- What verification and `combine` read of the signature schemes. -/
structure Scheme (PK B A M G : Type) where
  /-- `valid(sig, pk, msg)`: the check of one signature against its key and the message under
  the call's parameters (the scheme match of `additional_multisig_checks`, the parsing of the
  key and signature bytes, the verification). -/
  valid : VerifyParams → M → CompressedSignature B → PK → Bool
  /-- `ZkLoginAuthenticator::from_bytes` succeeds. -/
  zkLoginParses : B → Bool
  /-- `RtdAddress::from(&MultiSigPublicKey)`. -/
  address : MultiSigPublicKey PK → A
  /-- `GenericSignature::to_public_key`. -/
  toPublicKey : G → Except (RtdError PK) PK
  /-- `GenericSignature::to_compressed`. -/
  toCompressed : G → Except (RtdError PK) (CompressedSignature B)

variable {PK B A M G : Type}

section PublicKey

variable [DecidableEq PK]

/-- The weights summed as `u16`: `sum::<ThresholdUnit>()`. -/
def weightSum (weights : List UInt8) : UInt16 := (weights.map (·.toUInt16)).sum

/-- Whether a key equals one after it: the pairs `i < j` of `enumerate` and `skip(i + 1)`. -/
def hasDuplicate : List PK → Bool
  | [] => false
  | pk :: rest => rest.any (pk == ·) || hasDuplicate rest

/-- `MultiSigPublicKey::validate`. -/
def MultiSigPublicKey.validate (k : MultiSigPublicKey PK) :
    Except FastCryptoError (MultiSigPublicKey PK) :=
  if k.threshold == 0 || k.pkMap.isEmpty || k.pkMap.length > maxSignerInMultisig ||
      k.pkMap.any (·.2 == 0) || weightSum (k.pkMap.map (·.2)) < k.threshold ||
      hasDuplicate (k.pkMap.map (·.1)) then .error .invalidInput
  else .ok k

/-- `MultiSigPublicKey::new`. -/
def MultiSigPublicKey.new (pks : List PK) (weights : List UInt8) (threshold : UInt16) :
    Except (RtdError PK) (MultiSigPublicKey PK) :=
  if pks.isEmpty || weights.isEmpty || threshold == 0 || pks.length != weights.length ||
      pks.length > maxSignerInMultisig || weights.contains 0 || weightSum weights < threshold ||
      hasDuplicate pks then .error (.invalidSignature "Invalid multisig public key construction")
  else .ok ⟨pks.zip weights, threshold⟩

/-- `MultiSigPublicKey::get_index`: the position of the key, as a `u8`. -/
def MultiSigPublicKey.getIndex (k : MultiSigPublicKey PK) (pk : PK) : Option UInt8 :=
  (k.pkMap.findIdx? (·.1 == pk)).map (·.toUInt8)

end PublicKey

/-- `as_indices`: the indices of the set bits among the ten lowest. -/
def asIndices (bitmap : UInt16) : Except (RtdError PK) (List UInt8) :=
  if bitmap > maxBitmapValue then .error (.invalidSignature "Invalid bitmap")
  else .ok ((List.range 10).filterMap fun i =>
    if bitmap &&& ((1 : UInt16) <<< i.toUInt16) != 0 then some i.toUInt8 else none)

variable (scheme : Scheme PK B A M G)

/-- `MultiSig::get_zklogin_sigs`: the zkLogin authenticators, each of which must parse. -/
def getZkloginSigs (sigs : List (CompressedSignature B)) : Except (RtdError PK) (List B) :=
  (sigs.filterMap fun | .zkLogin z => some z | _ => none).mapM fun z =>
    if scheme.zkLoginParses z then .ok z
    else .error (.invalidSignature "Invalid zklogin authenticator bytes")

/-- `MultiSig::has_passkey_sigs`. -/
def hasPasskeySigs (sigs : List (CompressedSignature B)) : Bool :=
  sigs.any fun | .passkey _ => true | _ => false

/-- The loop of `verify_claims` over the signatures paired with the bitmap's indices: each
signature checked against the key at its index, whose weight is added. -/
def addWeights (params : VerifyParams) (msg : M) (pkMap : List (PK × UInt8)) :
    List (CompressedSignature B × UInt8) → UInt16 → Except (RtdError PK) UInt16
  | [], weightSum => .ok weightSum
  | (sig, i) :: rest, weightSum =>
    match pkMap[i.toNat]? with
    | none => .error (.invalidSignature "Invalid public keys index")
    | some (subsigPubkey, weight) =>
      if scheme.valid params msg sig subsigPubkey then
        addWeights params msg pkMap rest (weightSum + weight.toUInt16)
      else .error (.invalidSubSignature subsigPubkey)

variable [DecidableEq PK] [DecidableEq A]

/-- `MultiSig::verify_claims`. -/
def MultiSig.verifyClaims (params : VerifyParams) (msg : M) (ms : MultiSig PK B)
    (multisigAddress : A) : Except (RtdError PK) Unit :=
  match ms.multisigPk.validate with
  | .error _ => .error (.invalidSignature "Invalid multisig pubkey")
  | .ok _ =>
    if scheme.address ms.multisigPk != multisigAddress then
      .error (.invalidSignature "Invalid address derived from pks")
    else do
      let zkloginSigs ← getZkloginSigs scheme ms.sigs
      if !zkloginSigs.isEmpty && !params.acceptZkloginInMultisig then
        throw (.invalidSignature "zkLogin sig not supported inside multisig")
      if hasPasskeySigs ms.sigs && !params.acceptPasskeyInMultisig then
        throw (.invalidSignature "Passkey sig not supported inside multisig")
      let indices ← asIndices ms.bitmap
      let weightSum ← addWeights scheme params msg ms.multisigPk.pkMap (ms.sigs.zip indices) 0
      if weightSum ≥ ms.multisigPk.threshold then pure ()
      else throw (.insufficientWeight weightSum ms.multisigPk.threshold)

/-- The loop of `combine`: the bitmap and the compressed signatures so far. -/
def combineLoop (multisigPk : MultiSigPublicKey PK) :
    List G → UInt16 → List (CompressedSignature B) →
      Except (RtdError PK) (UInt16 × List (CompressedSignature B))
  | [], bitmap, sigs => .ok (bitmap, sigs)
  | s :: rest, bitmap, sigs => do
    let pk ← scheme.toPublicKey s
    let index ← match multisigPk.getIndex pk with
      | none => throw (.incorrectSigner pk)
      | some index => pure index
    if bitmap &&& ((1 : UInt16) <<< index.toUInt16) != 0 then
      throw (.invalidSignature "Duplicate public key")
    let bitmap := bitmap ||| ((1 : UInt16) <<< index.toUInt16)
    let sig ← scheme.toCompressed s
    combineLoop multisigPk rest bitmap (sigs ++ [sig])

/-- `MultiSig::combine`: the full signatures must be in the order of the keys. -/
def MultiSig.combine (fullSigs : List G) (multisigPk : MultiSigPublicKey PK) :
    Except (RtdError PK) (MultiSig PK B) :=
  match multisigPk.validate with
  | .error _ => .error (.invalidSignature "Invalid multisig public key")
  | .ok _ =>
    if fullSigs.length > multisigPk.pkMap.length || fullSigs.isEmpty then
      .error (.invalidSignature "Invalid number of signatures")
    else do
      let (bitmap, sigs) ← combineLoop scheme multisigPk fullSigs 0 []
      pure ⟨sigs, bitmap, multisigPk⟩

omit [DecidableEq A] in
/-- `MultiSig::init_and_validate`, the check of a deserialized `MultiSig`. -/
def MultiSig.initAndValidate (ms : MultiSig PK B) : Except FastCryptoError (MultiSig PK B) :=
  if ms.sigs.length > ms.multisigPk.pkMap.length || ms.sigs.isEmpty ||
      ms.bitmap > maxBitmapValue then .error .invalidInput
  else do
    let _ ← ms.multisigPk.validate
    pure ms

/-! ### The multisig public key -/

section Key

/-- What `validate` requires of a multisig public key. -/
structure MultiSigPublicKey.Valid (k : MultiSigPublicKey PK) : Prop where
  threshold_ne_zero : k.threshold ≠ 0
  pkMap_ne_nil : k.pkMap ≠ []
  length_le : k.pkMap.length ≤ maxSignerInMultisig
  weight_ne_zero : ∀ e ∈ k.pkMap, e.2 ≠ 0
  threshold_le : k.threshold ≤ weightSum (k.pkMap.map (·.2))
  nodup : (k.pkMap.map (·.1)).Nodup

theorem hasDuplicate_eq_false_iff {l : List PK} : hasDuplicate l = false ↔ l.Nodup := by
  induction l with
  | nil => simp [hasDuplicate]
  | cons pk rest ih =>
    simp only [hasDuplicate, Bool.or_eq_false_iff, ih, List.nodup_cons, List.any_eq_false,
      beq_iff_eq]
    constructor
    · rintro ⟨hne, hnodup⟩
      exact ⟨fun hmem => hne pk hmem rfl, hnodup⟩
    · rintro ⟨hnot, hnodup⟩
      exact ⟨fun x hx hpk => hnot (hpk ▸ hx), hnodup⟩

theorem validate_eq_ok {k k' : MultiSigPublicKey PK} :
    k.validate = .ok k' ↔ k' = k ∧ k.Valid := by
  unfold MultiSigPublicKey.validate
  split_ifs with h
  · -- a valid key fails none of the checks
    refine iff_of_false (by simp) ?_
    rintro ⟨-, h₁, h₂, h₃, h₄, h₅, h₆⟩
    have h₃' : ¬ maxSignerInMultisig < k.pkMap.length := Nat.not_lt.2 h₃
    have h₄' : k.pkMap.any (·.2 == 0) = false :=
      List.any_eq_false.2 fun e he h0 => h₄ e he (by simpa using h0)
    have h₅' : ¬ weightSum (k.pkMap.map (·.2)) < k.threshold := UInt16.not_lt.2 h₅
    simp [h₁, h₂, h₃', h₄', h₅', hasDuplicate_eq_false_iff.2 h₆] at h
  · simp only [Bool.or_eq_true, beq_iff_eq, List.isEmpty_iff, decide_eq_true_eq, List.any_eq_true,
      not_or, not_exists, not_and, Bool.not_eq_true] at h
    obtain ⟨⟨⟨⟨⟨h₁, h₂⟩, h₃⟩, h₄⟩, h₅⟩, h₆⟩ := h
    simp only [Except.ok.injEq]
    constructor
    · rintro rfl
      exact ⟨rfl, h₁, h₂, Nat.not_lt.1 h₃, fun e he => h₄ e he, UInt16.not_lt.1 h₅,
        hasDuplicate_eq_false_iff.1 h₆⟩
    · rintro ⟨rfl, -⟩
      rfl

/-- A key built by `new` passes `validate`. -/
theorem new_valid {pks : List PK} {weights : List UInt8} {threshold : UInt16}
    {k : MultiSigPublicKey PK} (h : MultiSigPublicKey.new pks weights threshold = .ok k) :
    k.Valid := by
  unfold MultiSigPublicKey.new at h
  split_ifs at h with hcheck
  simp only [Except.ok.injEq] at h
  subst h
  simp only [Bool.or_eq_true, beq_iff_eq, List.isEmpty_iff, bne_iff_ne, ne_eq, decide_eq_true_eq,
    List.contains_iff_mem, not_or, not_lt, Bool.not_eq_true] at hcheck
  obtain ⟨⟨⟨⟨⟨⟨⟨hpks, hweights⟩, h₁⟩, hlen⟩, h₃⟩, h₄⟩, h₅⟩, h₆⟩ := hcheck
  have hlen' : weights.length = pks.length := (not_not.1 hlen).symm
  have hfst : (pks.zip weights).map (·.1) = pks := List.map_fst_zip (by omega)
  have hsnd : (pks.zip weights).map (·.2) = weights := List.map_snd_zip (by omega)
  refine ⟨h₁, ?_, ?_, ?_, ?_, ?_⟩
  · intro hnil
    exact hpks (List.zip_eq_nil_iff.1 hnil |>.resolve_right hweights)
  · simpa [hlen'] using h₃
  · intro e he h0
    exact h₄ (h0 ▸ List.of_mem_zip he).2
  · simpa [hsnd] using h₅
  · simpa [hfst] using hasDuplicate_eq_false_iff.1 h₆

theorem toNat_weightSum (weights : List UInt8) :
    (weightSum weights).toNat = (weights.map (·.toNat)).sum % 2 ^ 16 := by
  induction weights with
  | nil => rfl
  | cons w rest ih =>
    simp only [weightSum, List.map_cons, List.sum_cons, UInt16.toNat_add, UInt8.toNat_toUInt16]
    rw [← weightSum, ih, Nat.add_mod_mod]

/-- At most ten values of a byte each sum to less than `2 ^ 16`: a sum of weights of keys
does not wrap in `u16`. -/
theorem sum_lt_of_le_byte {l : List Nat} (hbyte : ∀ x ∈ l, x ≤ 255)
    (h : l.length ≤ maxSignerInMultisig) : l.sum < 2 ^ 16 := by
  have hle : l.sum ≤ l.length * 255 := by simpa using List.sum_le_card_nsmul l 255 hbyte
  unfold maxSignerInMultisig at h
  omega

theorem sum_weights_lt (weights : List UInt8) (h : weights.length ≤ maxSignerInMultisig) :
    (weights.map (·.toNat)).sum < 2 ^ 16 :=
  sum_lt_of_le_byte (by simpa using fun w _ => Nat.le_of_lt_succ w.toNat_lt) (by simpa using h)

omit [DecidableEq PK] in
/-- The threshold of a valid key is at most the sum of its weights, which does not wrap. -/
theorem MultiSigPublicKey.Valid.threshold_le_sum {k : MultiSigPublicKey PK} (hk : k.Valid) :
    k.threshold.toNat ≤ (k.pkMap.map (·.2.toNat)).sum := by
  have hlt := sum_weights_lt (k.pkMap.map (·.2)) (by simpa using hk.length_le)
  have hle := UInt16.le_iff_toNat_le.1 hk.threshold_le
  rw [toNat_weightSum, List.map_map] at hle
  rw [List.map_map] at hlt
  rwa [Nat.mod_eq_of_lt hlt] at hle

/-- The key at index `i`, as `get_index` finds it when the keys are distinct. -/
theorem getIndex_eq {k : MultiSigPublicKey PK} (hnodup : (k.pkMap.map (·.1)).Nodup) {i : Nat}
    {pk : PK} {w : UInt8} (hi : k.pkMap[i]? = some (pk, w)) : k.getIndex pk = some i.toUInt8 := by
  obtain ⟨hlt, hget⟩ := List.getElem?_eq_some_iff.1 hi
  have hfind : k.pkMap.findIdx? (·.1 == pk) = some i := by
    refine List.findIdx?_eq_some_iff_getElem.2 ⟨hlt, by simp [hget], fun j hji => ?_⟩
    -- an earlier key equal to this one would repeat it
    have hj : j < (k.pkMap.map (·.1)).length := by simp; omega
    have hne := (@List.Nodup.getElem_inj_iff _ _ hnodup j hj i (by simpa using hlt)).not.2
      (by omega)
    simpa [hget] using hne
  simp [MultiSigPublicKey.getIndex, hfind]

omit [DecidableEq A] in
/-- `init_and_validate` accepts a multisig exactly when it has at least one signature and no
more than keys, a bitmap within the maximum and a valid key, and returns it unchanged. -/
theorem initAndValidate_eq_ok {ms ms' : MultiSig PK B} :
    ms.initAndValidate = .ok ms' ↔ ms' = ms ∧ ms.sigs ≠ [] ∧
      ms.sigs.length ≤ ms.multisigPk.pkMap.length ∧ ms.bitmap ≤ maxBitmapValue ∧
      ms.multisigPk.Valid := by
  unfold MultiSig.initAndValidate
  split_ifs with h
  · -- a multisig that passes the three checks fails none of them
    refine iff_of_false (fun h => nomatch h) ?_
    rintro ⟨-, hne, hlen, hle, -⟩
    simp [hne, Nat.not_lt.2 hlen, UInt16.not_lt.2 hle] at h
  · simp only [Bool.or_eq_true, decide_eq_true_eq, List.isEmpty_iff, not_or] at h
    obtain ⟨⟨hlen, hne⟩, hle⟩ := h
    cases hk : ms.multisigPk.validate with
    | error e =>
      refine iff_of_false (fun h => nomatch h) ?_
      rintro ⟨-, -, -, -, hvalid⟩
      rw [validate_eq_ok.2 ⟨rfl, hvalid⟩] at hk
      exact nomatch hk
    | ok k =>
      obtain ⟨rfl, hvalid⟩ := validate_eq_ok.1 hk
      simp only [Except.ok_bind, Except.pure_eq_ok]
      exact ⟨fun h => ⟨h.symm, hne, Nat.not_lt.1 hlen, UInt16.not_lt.1 hle, hvalid⟩,
        fun h => h.1.symm⟩

end Key

/-! ### The bitmap -/

section Bitmap

/-- The indices of the set bits of a bitmap, lowest first. -/
def setBits (bitmap : UInt16) : List Nat := (List.range 16).filter bitmap.toNat.testBit

theorem sortedLT_setBits (bitmap : UInt16) : (setBits bitmap).SortedLT :=
  (List.pairwise_lt_range.filter _).sortedLT

theorem testBit_of_le_maxBitmapValue {bitmap : UInt16} (h : bitmap ≤ maxBitmapValue) {i : Nat}
    (hi : 10 ≤ i) : bitmap.toNat.testBit i = false := by
  have hlt : bitmap.toNat < 2 ^ i :=
    calc bitmap.toNat ≤ 1023 := UInt16.le_iff_toNat_le.1 h
      _ < 2 ^ 10 := by decide
      _ ≤ 2 ^ i := Nat.pow_le_pow_right (by omega) hi
  exact Nat.testBit_lt_two_pow hlt

theorem le_maxBitmapValue_of_testBit {bitmap : UInt16}
    (h : ∀ i, 10 ≤ i → bitmap.toNat.testBit i = false) : bitmap ≤ maxBitmapValue := by
  have hlt : bitmap.toNat < 2 ^ 10 := Nat.lt_pow_two_of_testBit _ h
  have hmax : maxBitmapValue.toNat = 2 ^ 10 - 1 := rfl
  exact UInt16.le_iff_toNat_le.2 (by omega)

/-- Below the maximum, the set bits are among the ten lowest. -/
theorem setBits_of_le {bitmap : UInt16} (h : bitmap ≤ maxBitmapValue) :
    setBits bitmap = (List.range 10).filter bitmap.toNat.testBit := by
  have htail : ((List.range 6).map (10 + ·)).filter bitmap.toNat.testBit = [] := by
    refine List.filter_eq_nil_iff.2 fun i hi => ?_
    obtain ⟨j, -, rfl⟩ := List.mem_map.1 hi
    simp [testBit_of_le_maxBitmapValue h (Nat.le_add_right 10 j)]
  rw [setBits, show 16 = 10 + 6 from rfl, List.range_add, List.filter_append, htail,
    List.append_nil]

omit [DecidableEq PK] in
theorem asIndices_eq_ok {bitmap : UInt16} {indices : List UInt8} :
    (asIndices bitmap : Except (RtdError PK) _) = .ok indices ↔
      bitmap ≤ maxBitmapValue ∧ indices = (setBits bitmap).map Nat.toUInt8 := by
  unfold asIndices
  split_ifs with h
  · exact iff_of_false (fun h => nomatch h) fun ⟨hle, _⟩ => UInt16.not_lt.2 hle h
  · have hle : bitmap ≤ maxBitmapValue := UInt16.not_lt.1 h
    -- the test of the loop is the bit of the index
    have hloop : ((List.range 10).filterMap fun i =>
        if bitmap &&& ((1 : UInt16) <<< i.toUInt16) != 0 then some i.toUInt8 else none) =
        (setBits bitmap).map Nat.toUInt8 := by
      rw [setBits_of_le hle, ← List.filterMap_eq_map', List.filterMap_filter]
      refine List.filterMap_congr fun i hi => ?_
      rw [and_shiftLeft_ne_zero bitmap (by simp at hi; omega)]
    rw [hloop, Except.ok.injEq]
    exact ⟨fun h => ⟨hle, h.symm⟩, fun h => h.2.symm⟩

theorem length_setBits_le {bitmap : UInt16} (h : bitmap ≤ maxBitmapValue) :
    (setBits bitmap).length ≤ maxSignerInMultisig := by
  rw [setBits_of_le h]
  exact (List.length_filter_le _ _).trans (by simp [maxSignerInMultisig])

/-- The bits of a list of indices below 16, lowest first, are the list. -/
theorem setBits_eq_of_testBit {bitmap : UInt16} {l : List Nat} (hl : l.SortedLT)
    (hlt : ∀ i ∈ l, i < 16) (hbits : ∀ j, bitmap.toNat.testBit j = decide (j ∈ l)) :
    setBits bitmap = l := by
  refine (sortedLT_setBits bitmap).eq_of_mem_iff hl fun j => ?_
  simp only [setBits, List.mem_filter, List.mem_range, hbits, decide_eq_true_eq]
  exact ⟨fun h => h.2, fun h => ⟨hlt j h, h⟩⟩

end Bitmap

/-! ### The weight loop -/

section Weights

/-- The weight of the key at index `i`, none where there is no key. -/
def weightOf (pkMap : List (PK × UInt8)) (i : Nat) : Nat := ((pkMap[i]?).map (·.2.toNat)).getD 0

omit [DecidableEq PK] [DecidableEq A] in
/-- The weight loop succeeds exactly when every signature is valid for the key at its index,
and returns the weights added to the start, modulo `2 ^ 16`. -/
theorem addWeights_eq_ok {params : VerifyParams} {msg : M} {pkMap : List (PK × UInt8)}
    {l : List (CompressedSignature B × UInt8)} {w₀ w : UInt16} :
    addWeights scheme params msg pkMap l w₀ = .ok w ↔
      (∀ p ∈ l, ∃ pk weight, pkMap[p.2.toNat]? = some (pk, weight) ∧
        scheme.valid params msg p.1 pk) ∧
      w.toNat = (w₀.toNat + (l.map fun p => weightOf pkMap p.2.toNat).sum) % 2 ^ 16 := by
  induction l generalizing w₀ with
  | nil =>
    simp only [addWeights, Except.ok.injEq, List.not_mem_nil, false_implies, implies_true,
      true_and, List.map_nil, List.sum_nil, Nat.add_zero, Nat.mod_eq_of_lt w₀.toNat_lt]
    exact ⟨fun h => h ▸ rfl, fun h => (UInt16.toNat_inj.1 h).symm⟩
  | cons p rest ih =>
    obtain ⟨sig, i⟩ := p
    simp only [addWeights]
    cases hget : pkMap[i.toNat]? with
    | none =>
      refine iff_of_false (fun h => nomatch h) fun ⟨hall, _⟩ => ?_
      obtain ⟨pk, weight, hsome, -⟩ := hall (sig, i) List.mem_cons_self
      rw [hget] at hsome
      exact nomatch hsome
    | some e =>
      obtain ⟨pk, weight⟩ := e
      have hweight : weightOf pkMap i.toNat = weight.toNat := by simp [weightOf, hget]
      simp only
      split_ifs with hvalid
      · -- the weight is added in `u16`
        rw [ih, List.forall_mem_cons, List.map_cons, List.sum_cons, hweight, UInt16.toNat_add,
          UInt8.toNat_toUInt16, Nat.mod_add_mod, Nat.add_assoc]
        exact ⟨fun ⟨hrest, hw⟩ => ⟨⟨⟨pk, weight, hget, hvalid⟩, hrest⟩, hw⟩,
          fun ⟨⟨_, hrest⟩, hw⟩ => ⟨hrest, hw⟩⟩
      · refine iff_of_false (fun h => nomatch h) fun ⟨hall, _⟩ => ?_
        obtain ⟨pk', weight', hsome, hvalid'⟩ := hall (sig, i) List.mem_cons_self
        rw [hget, Option.some.injEq, Prod.mk.injEq] at hsome
        obtain ⟨rfl, -⟩ := hsome
        exact hvalid hvalid'

end Weights

/-! ### Combining signatures -/

section Combine

theorem toUInt16_toUInt8 {i : Nat} (hi : i < 256) : i.toUInt8.toUInt16 = i.toUInt16 := by
  apply UInt16.toNat_inj.1
  simp only [UInt8.toNat_toUInt16, Nat.toUInt8_eq, Nat.toUInt16_eq, UInt8.toNat_ofNat',
    UInt16.toNat_ofNat']
  omega

omit [DecidableEq A] in
/-- The loop of `combine` over the signatures of distinct keys given in the keys' order
sets the bit of each and collects their compressed signatures. -/
theorem combineLoop_eq_ok {multisigPk : MultiSigPublicKey PK}
    (hnodup : (multisigPk.pkMap.map (·.1)).Nodup) {pkOf : Nat → PK} {sigOf : Nat → G}
    {compressedOf : Nat → CompressedSignature B} {l : List Nat} (hl : l.Pairwise (· < ·))
    (hlt : ∀ i ∈ l, i < 16)
    (hsig : ∀ i ∈ l, (∃ w, multisigPk.pkMap[i]? = some (pkOf i, w)) ∧
      scheme.toPublicKey (sigOf i) = .ok (pkOf i) ∧
      scheme.toCompressed (sigOf i) = .ok (compressedOf i))
    (bitmap : UInt16) (sigs : List (CompressedSignature B))
    (hfresh : ∀ i ∈ l, bitmap.toNat.testBit i = false) :
    ∃ bitmap', combineLoop scheme multisigPk (l.map sigOf) bitmap sigs =
        .ok (bitmap', sigs ++ l.map compressedOf) ∧
      ∀ j, bitmap'.toNat.testBit j = (bitmap.toNat.testBit j || decide (j ∈ l)) := by
  induction l generalizing bitmap sigs with
  | nil => exact ⟨bitmap, by simp [combineLoop], fun j => by simp⟩
  | cons i rest ih =>
    obtain ⟨⟨w, hget⟩, hpk, hcompressed⟩ := hsig i List.mem_cons_self
    have hi : i < 16 := hlt i List.mem_cons_self
    have hindex : multisigPk.getIndex (pkOf i) = some i.toUInt8 := getIndex_eq hnodup hget
    have hshift : i.toUInt8.toUInt16 = i.toUInt16 := toUInt16_toUInt8 (by omega)
    -- the key's bit is not set yet: a signature for it comes once
    have hdup : (bitmap &&& ((1 : UInt16) <<< i.toUInt16) != 0) = false := by
      rw [and_shiftLeft_ne_zero bitmap hi, hfresh i List.mem_cons_self]
    have hbits₁ := testBit_or_shiftLeft bitmap hi
    have hfresh₁ : ∀ j ∈ rest,
        (bitmap ||| ((1 : UInt16) <<< i.toUInt16)).toNat.testBit j = false := by
      intro j hj
      have hij : i < j := List.rel_of_pairwise_cons hl hj
      rw [hbits₁, hfresh j (List.mem_cons_of_mem _ hj)]
      simp only [Bool.false_or, decide_eq_false_iff_not]
      omega
    obtain ⟨bitmap', hloop, hbits'⟩ := ih (List.Pairwise.of_cons hl)
      (fun j hj => hlt j (List.mem_cons_of_mem _ hj))
      (fun j hj => hsig j (List.mem_cons_of_mem _ hj)) _ (sigs ++ [compressedOf i]) hfresh₁
    refine ⟨bitmap', ?_, fun j => ?_⟩
    · simp only [List.map_cons, combineLoop, hpk, hindex, Except.ok_bind, pure_bind, hshift, hdup,
        hcompressed]
      rw [hloop]
      simp
    · rw [hbits', hbits₁]
      by_cases hj : i = j
      · simp [hj]
      · simp [hj, Ne.symm hj]

omit [DecidableEq A] in
/-- `combine` over full signatures of distinct keys of a valid key, given in the keys' order:
the multisig holds their compressed signatures under a bitmap within the maximum whose set
bits are the signers. -/
theorem combine_eq_ok {multisigPk k : MultiSigPublicKey PK} (hk : multisigPk.validate = .ok k)
    {signers : List Nat} (hsorted : signers.Pairwise (· < ·)) (hne : signers ≠ [])
    {pkOf : Nat → PK} {sigOf : Nat → G} {compressedOf : Nat → CompressedSignature B}
    (hkey : ∀ i ∈ signers, ∃ w, multisigPk.pkMap[i]? = some (pkOf i, w))
    (hpk : ∀ i ∈ signers, scheme.toPublicKey (sigOf i) = .ok (pkOf i))
    (hcompressed : ∀ i ∈ signers, scheme.toCompressed (sigOf i) = .ok (compressedOf i)) :
    ∃ bitmap, MultiSig.combine scheme (signers.map sigOf) multisigPk =
        .ok ⟨signers.map compressedOf, bitmap, multisigPk⟩ ∧
      bitmap ≤ maxBitmapValue ∧ setBits bitmap = signers := by
  obtain ⟨rfl, hvalid⟩ := validate_eq_ok.1 hk
  -- the signers index keys: there are at most ten of them, each below ten
  have hlen : ∀ i ∈ signers, i < k.pkMap.length := fun i hi => by
    obtain ⟨w, hget⟩ := hkey i hi
    exact (List.getElem?_eq_some_iff.1 hget).1
  have hlt10 : ∀ i ∈ signers, i < 10 := fun i hi => (hlen i hi).trans_le hvalid.length_le
  have hlt16 : ∀ i ∈ signers, i < 16 := fun i hi => (hlt10 i hi).trans (by decide)
  have hcount : signers.length ≤ k.pkMap.length := by
    have hnodup : signers.Nodup := hsorted.imp ne_of_lt
    simpa using hnodup.length_le_of_subset fun i hi => List.mem_range.2 (hlen i hi)
  -- the loop sets exactly the signers' bits
  obtain ⟨bitmap, hloop, hbits⟩ := combineLoop_eq_ok scheme hvalid.nodup hsorted hlt16
    (fun i hi => ⟨hkey i hi, hpk i hi, hcompressed i hi⟩) 0 [] (fun i _ => by simp)
  have hbits' : ∀ j, bitmap.toNat.testBit j = decide (j ∈ signers) := fun j => by
    simpa using hbits j
  refine ⟨bitmap, ?_, ?_, setBits_eq_of_testBit hsorted.sortedLT hlt16 hbits'⟩
  · -- a valid key, as many signatures as keys at most, and the loop
    have hsize : ¬((signers.map sigOf).length > k.pkMap.length ||
        (signers.map sigOf).isEmpty) = true := by
      simp [hne]
      omega
    unfold MultiSig.combine
    rw [hk]
    dsimp only
    rw [if_neg hsize, hloop]
    rfl
  · refine le_maxBitmapValue_of_testBit fun i hi => ?_
    rw [hbits', decide_eq_false_iff_not]
    intro hmem
    have := hlt10 i hmem
    omega

end Combine

/-! ### The weight check -/

section Verify

theorem lt_of_mem_setBits {bitmap : UInt16} {i : Nat} (h : i ∈ setBits bitmap) : i < 16 :=
  List.mem_range.1 (List.mem_filter.1 h).1

omit [DecidableEq PK] in
theorem weightOf_le (pkMap : List (PK × UInt8)) (i : Nat) : weightOf pkMap i ≤ 255 := by
  unfold weightOf
  cases pkMap[i]? with
  | none => simp
  | some e => simpa using Nat.le_of_lt_succ e.2.toNat_lt

omit [DecidableEq PK] in
theorem sum_weightOf_lt (pkMap : List (PK × UInt8)) {l : List Nat}
    (h : l.length ≤ maxSignerInMultisig) : (l.map (weightOf pkMap)).sum < 2 ^ 16 :=
  sum_lt_of_le_byte (by simpa using fun i _ => weightOf_le pkMap i) (by simpa using h)

omit [DecidableEq PK] [DecidableEq A] in
/-- The loop over signatures paired with indices below 16, read with the indices as naturals. -/
theorem addWeights_zip_eq_ok {params : VerifyParams} {msg : M} {pkMap : List (PK × UInt8)}
    {sigs : List (CompressedSignature B)} {l : List Nat} (hlt : ∀ i ∈ l, i < 16) {w : UInt16} :
    addWeights scheme params msg pkMap (sigs.zip (l.map Nat.toUInt8)) 0 = .ok w ↔
      (∀ p ∈ sigs.zip l, ∃ pk weight, pkMap[p.2]? = some (pk, weight) ∧
        scheme.valid params msg p.1 pk) ∧
      w.toNat = ((sigs.zip l).map fun p => weightOf pkMap p.2).sum % 2 ^ 16 := by
  have htoNat : ∀ p ∈ sigs.zip l, (Nat.toUInt8 p.2).toNat = p.2 := fun p hp => by
    have := hlt p.2 (List.of_mem_zip hp).2
    simp only [Nat.toUInt8_eq, UInt8.toNat_ofNat']
    omega
  rw [List.zip_map_right, addWeights_eq_ok, List.forall_mem_map, List.map_map, UInt16.toNat_zero,
    Nat.zero_add]
  have hsum : ((sigs.zip l).map ((fun p => weightOf pkMap p.2.toNat) ∘ Prod.map id Nat.toUInt8)) =
      (sigs.zip l).map fun p => weightOf pkMap p.2 :=
    List.map_congr_left fun p hp => by simp [htoNat p hp]
  rw [hsum]
  refine and_congr (forall₂_congr fun p hp => ?_) Iff.rfl
  simp [htoNat p hp]

omit [DecidableEq PK] in
theorem nodup_zip_setBits (sigs : List (CompressedSignature B)) (bitmap : UInt16) :
    ((sigs.zip (setBits bitmap)).map (·.2)).Nodup := by
  have hsnd : (sigs.zip (setBits bitmap)).map (·.2) =
      (setBits bitmap).take (min sigs.length (setBits bitmap).length) := by
    rw [List.zip_eq_zip_take_min, List.map_snd_zip (by simp)]
  rw [hsnd]
  exact ((List.pairwise_lt_range.filter _).imp ne_of_lt).sublist (List.take_sublist _ _)

/-- `verify_claims` step by step: the key validates, the address is the key's, the zkLogin
signatures parse and both gates pass, the bitmap gives indices, and the weight loop over the
signatures paired with them reaches the threshold. -/
theorem verifyClaims_eq_ok {params : VerifyParams} {msg : M} {ms : MultiSig PK B}
    {multisigAddress : A} :
    ms.verifyClaims scheme params msg multisigAddress = .ok () ↔
      (∃ k, ms.multisigPk.validate = .ok k) ∧ scheme.address ms.multisigPk = multisigAddress ∧
      ∃ zs, getZkloginSigs scheme ms.sigs = .ok zs ∧
        ¬(!zs.isEmpty && !params.acceptZkloginInMultisig) = true ∧
        ¬(hasPasskeySigs ms.sigs && !params.acceptPasskeyInMultisig) = true ∧
        ∃ indices, (asIndices ms.bitmap : Except (RtdError PK) _) = .ok indices ∧
          ∃ w, addWeights scheme params msg ms.multisigPk.pkMap (ms.sigs.zip indices) 0 = .ok w ∧
            ms.multisigPk.threshold ≤ w := by
  unfold MultiSig.verifyClaims
  cases hk : ms.multisigPk.validate with
  | error e => exact iff_of_false (fun h => nomatch h) fun ⟨⟨k, hk'⟩, _⟩ => nomatch hk'
  | ok k =>
    by_cases haddr : scheme.address ms.multisigPk = multisigAddress
    · rw [if_neg (by simpa using haddr)]
      simp only [Except.bind_eq_ok, Except.ite_throw_bind_eq_ok, Except.ite_pure_throw_eq_ok,
        ge_iff_le, and_true, Except.ok.injEq, exists_eq', haddr, true_and]
    · rw [if_pos (by simpa using haddr)]
      exact iff_of_false (fun h => nomatch h) fun ⟨_, haddr', _⟩ => haddr haddr'

/-- What a successful `verify_claims` establishes: the key is valid, the bitmap within its
maximum, and the signatures paired in order with the set bits of the bitmap from the lowest
are valid for distinct keys whose weights, summed without wrapping, reach the threshold. -/
theorem verifyClaims_sound {params : VerifyParams} {msg : M} {ms : MultiSig PK B}
    {multisigAddress : A} (h : ms.verifyClaims scheme params msg multisigAddress = .ok ()) :
    ms.multisigPk.Valid ∧ ms.bitmap ≤ maxBitmapValue ∧
      (∀ p ∈ ms.sigs.zip (setBits ms.bitmap), ∃ pk weight,
        ms.multisigPk.pkMap[p.2]? = some (pk, weight) ∧ scheme.valid params msg p.1 pk) ∧
      ((ms.sigs.zip (setBits ms.bitmap)).map (·.2)).Nodup ∧
      ms.multisigPk.threshold.toNat ≤
        ((ms.sigs.zip (setBits ms.bitmap)).map fun p => weightOf ms.multisigPk.pkMap p.2).sum ∧
      ((ms.sigs.zip (setBits ms.bitmap)).map fun p => weightOf ms.multisigPk.pkMap p.2).sum <
        2 ^ 16 := by
  obtain ⟨⟨k, hk⟩, -, zs, -, -, -, indices, hindices, weightSum, hweights, hge⟩ :=
    (verifyClaims_eq_ok scheme).1 h
  obtain ⟨-, hvalid⟩ := validate_eq_ok.1 hk
  obtain ⟨hle, rfl⟩ := asIndices_eq_ok.1 hindices
  obtain ⟨hall, hsum⟩ :=
    (addWeights_zip_eq_ok scheme fun i hi => lt_of_mem_setBits hi).1 hweights
  -- at most ten pairs, so the `u16` sum does not wrap
  have hlen : ((ms.sigs.zip (setBits ms.bitmap)).map (·.2)).length ≤ maxSignerInMultisig := by
    rw [List.length_map, List.length_zip]
    exact (Nat.min_le_right _ _).trans (length_setBits_le hle)
  have hlt := sum_weightOf_lt ms.multisigPk.pkMap hlen
  rw [List.map_map, Function.comp_def] at hlt
  rw [Nat.mod_eq_of_lt hlt] at hsum
  refine ⟨hvalid, hle, hall, nodup_zip_setBits _ _, ?_, hlt⟩
  rw [← hsum]
  exact UInt16.le_iff_toNat_le.1 hge

end Verify

/-! ### Completeness -/

section Complete

/-- The signatures that the gates of `verify_claims` let through under the parameters: a
zkLogin signature whose authenticator parses, when zkLogin is accepted inside multisig, and a
passkey signature when passkeys are. -/
def kindAccepted (params : VerifyParams) : CompressedSignature B → Bool
  | .zkLogin z => scheme.zkLoginParses z && params.acceptZkloginInMultisig
  | .passkey _ => params.acceptPasskeyInMultisig
  | _ => true

variable {params : VerifyParams} {sigs : List (CompressedSignature B)}

omit [DecidableEq PK] [DecidableEq A] in
/-- Accepted signatures pass the zkLogin gate: their authenticators parse, and there are
none unless zkLogin is accepted. -/
theorem zkLoginGate_of_kindAccepted (h : ∀ c ∈ sigs, kindAccepted scheme params c) :
    ∃ zs, (getZkloginSigs scheme sigs : Except (RtdError PK) _) = .ok zs ∧
      ¬(!zs.isEmpty && !params.acceptZkloginInMultisig) = true := by
  unfold getZkloginSigs
  -- every zkLogin authenticator among the signatures is accepted
  have hz : ∀ z ∈ sigs.filterMap (fun | .zkLogin z => some z | _ => none),
      scheme.zkLoginParses z = true ∧ params.acceptZkloginInMultisig = true := by
    intro z hz
    obtain ⟨c, hc, hcz⟩ := List.mem_filterMap.1 hz
    cases c <;> simp only [reduceCtorEq, Option.some.injEq] at hcz
    subst hcz
    simpa [kindAccepted] using h _ hc
  refine ⟨_, Except.mapM_eq_ok_of_forall (g := id) fun z hz' => ?_, ?_⟩
  · rw [if_pos (hz z hz').1, id]
  · rw [List.map_id]
    cases hacc : params.acceptZkloginInMultisig
    · -- zkLogin is not accepted: there is no zkLogin signature
      have hnil := List.eq_nil_iff_forall_not_mem.2 fun z hz' => by simpa [hacc] using hz z hz'
      simp [hnil]
    · simp

omit [DecidableEq PK] [DecidableEq A] in
/-- Accepted signatures pass the passkey gate: there are none unless passkeys are accepted. -/
theorem passkeyGate_of_kindAccepted (h : ∀ c ∈ sigs, kindAccepted scheme params c) :
    ¬(hasPasskeySigs sigs && !params.acceptPasskeyInMultisig) = true := by
  cases hp : params.acceptPasskeyInMultisig
  · have hnone : hasPasskeySigs sigs = false := by
      refine List.any_eq_false.2 fun c hc => ?_
      have := h c hc
      cases c <;> simp_all [kindAccepted]
    simp [hnone]
  · simp

theorem zip_map_self {α β : Type} (f : α → β) (l : List α) :
    (l.map f).zip l = l.map fun i => (f i, i) := by
  induction l with
  | nil => rfl
  | cons i l ih => simp [ih]

/-- Full signatures of distinct keys of a valid multisig public key, given in the keys' order,
each converting to its key and to an accepted compressed signature valid for the key, with
weights that reach the threshold: `combine` builds a multisig that verifies under the
key's address. -/
theorem combine_verifyClaims {msg : M} {multisigPk k : MultiSigPublicKey PK}
    (hk : multisigPk.validate = .ok k) {signers : List Nat} (hsorted : signers.Pairwise (· < ·))
    {pkOf : Nat → PK} {sigOf : Nat → G} {compressedOf : Nat → CompressedSignature B}
    (hkey : ∀ i ∈ signers, ∃ w, multisigPk.pkMap[i]? = some (pkOf i, w))
    (hpk : ∀ i ∈ signers, scheme.toPublicKey (sigOf i) = .ok (pkOf i))
    (hcompressed : ∀ i ∈ signers, scheme.toCompressed (sigOf i) = .ok (compressedOf i))
    (hvalidSig : ∀ i ∈ signers, scheme.valid params msg (compressedOf i) (pkOf i))
    (haccepted : ∀ i ∈ signers, kindAccepted scheme params (compressedOf i))
    (hweight : multisigPk.threshold.toNat ≤ (signers.map (weightOf multisigPk.pkMap)).sum) :
    ∃ ms, MultiSig.combine scheme (signers.map sigOf) multisigPk = .ok ms ∧
      ms.verifyClaims scheme params msg (scheme.address multisigPk) = .ok () := by
  obtain ⟨rfl, hvalid⟩ := validate_eq_ok.1 hk
  have hne : signers ≠ [] := by
    rintro rfl
    exact hvalid.threshold_ne_zero (UInt16.toNat_inj.1 (by simpa using hweight))
  obtain ⟨bitmap, hcombine, hle, hsetBits⟩ :=
    combine_eq_ok scheme hk hsorted hne hkey hpk hcompressed
  refine ⟨_, hcombine, ?_⟩
  -- `verify_claims`: the bitmap names the signers, lowest first, as the signatures are
  have haccepted' : ∀ c ∈ signers.map compressedOf, kindAccepted scheme params c := by
    intro c hc
    obtain ⟨i, hi, rfl⟩ := List.mem_map.1 hc
    exact haccepted i hi
  obtain ⟨zs, hzs, hzk⟩ := zkLoginGate_of_kindAccepted scheme haccepted'
  have hpairs : (signers.map compressedOf).zip (setBits bitmap) =
      signers.map fun i => (compressedOf i, i) := by
    rw [hsetBits, zip_map_self]
  -- the weights of at most ten signers do not wrap
  have hcount : signers.length ≤ maxSignerInMultisig := hsetBits ▸ length_setBits_le hle
  have htotal := sum_weightOf_lt k.pkMap hcount
  have hw : (signers.map (weightOf k.pkMap)).sum.toUInt16.toNat =
      (signers.map (weightOf k.pkMap)).sum := by
    rw [Nat.toUInt16_eq, UInt16.toNat_ofNat', Nat.mod_eq_of_lt htotal]
  refine (verifyClaims_eq_ok scheme).2 ⟨⟨k, hk⟩, rfl, zs, hzs, hzk,
    passkeyGate_of_kindAccepted scheme haccepted', _, asIndices_eq_ok.2 ⟨hle, rfl⟩,
    (signers.map (weightOf k.pkMap)).sum.toUInt16,
    (addWeights_zip_eq_ok scheme fun i hi => lt_of_mem_setBits hi).2 ⟨?_, ?_⟩, ?_⟩
  · rw [hpairs]
    intro p hp
    obtain ⟨i, hi, rfl⟩ := List.mem_map.1 hp
    obtain ⟨w, hget⟩ := hkey i hi
    exact ⟨pkOf i, w, hget, hvalidSig i hi⟩
  · rw [hpairs, List.map_map, hw]
    exact (Nat.mod_eq_of_lt htotal).symm
  · rw [UInt16.le_iff_toNat_le, hw]
    exact hweight

/-- The weight check of `verify_claims` is sound, and complete for the signatures its gates
let through: a multisig that verifies has a valid key, a bitmap within the maximum, and its
signatures, paired in order with the set bits from the lowest, valid for distinct keys whose
weights reach the threshold with no `u16` wrap; and the signatures of distinct keys, given in
the keys' order, with weight at least the threshold, combine into a multisig that verifies. -/
theorem multisig_weightCheck_sound_complete :
    (∀ (params : VerifyParams) (msg : M) (ms : MultiSig PK B) (multisigAddress : A),
      ms.verifyClaims scheme params msg multisigAddress = .ok () →
        ms.multisigPk.Valid ∧ ms.bitmap ≤ maxBitmapValue ∧
        (∀ p ∈ ms.sigs.zip (setBits ms.bitmap), ∃ pk weight,
          ms.multisigPk.pkMap[p.2]? = some (pk, weight) ∧ scheme.valid params msg p.1 pk) ∧
        ((ms.sigs.zip (setBits ms.bitmap)).map (·.2)).Nodup ∧
        ms.multisigPk.threshold.toNat ≤
          ((ms.sigs.zip (setBits ms.bitmap)).map fun p => weightOf ms.multisigPk.pkMap p.2).sum ∧
        ((ms.sigs.zip (setBits ms.bitmap)).map fun p => weightOf ms.multisigPk.pkMap p.2).sum <
          2 ^ 16) ∧
    (∀ (params : VerifyParams) (msg : M) (multisigPk k : MultiSigPublicKey PK)
      (signers : List Nat) (pkOf : Nat → PK) (sigOf : Nat → G)
      (compressedOf : Nat → CompressedSignature B),
      multisigPk.validate = .ok k → signers.Pairwise (· < ·) →
      (∀ i ∈ signers, ∃ w, multisigPk.pkMap[i]? = some (pkOf i, w)) →
      (∀ i ∈ signers, scheme.toPublicKey (sigOf i) = .ok (pkOf i)) →
      (∀ i ∈ signers, scheme.toCompressed (sigOf i) = .ok (compressedOf i)) →
      (∀ i ∈ signers, scheme.valid params msg (compressedOf i) (pkOf i)) →
      (∀ i ∈ signers, kindAccepted scheme params (compressedOf i)) →
      multisigPk.threshold.toNat ≤ (signers.map (weightOf multisigPk.pkMap)).sum →
      ∃ ms, MultiSig.combine scheme (signers.map sigOf) multisigPk = .ok ms ∧
        ms.verifyClaims scheme params msg (scheme.address multisigPk) = .ok ()) :=
  ⟨fun _ _ _ _ h => verifyClaims_sound scheme h,
    fun _ _ _ _ _ _ _ _ hk hsorted hkey hpk hcompressed hvalidSig haccepted hweight =>
      combine_verifyClaims scheme hk hsorted hkey hpk hcompressed hvalidSig haccepted hweight⟩

end Complete

/-! ### A scheme for tests -/

/-- Keys are naturals and a full signature is a compressed one whose bytes are its signer's
key; it is valid for that key, every zkLogin authenticator parses, and the address of a key
is its number of keys. -/
def testScheme : Scheme Nat Nat Nat Unit (CompressedSignature Nat) where
  valid _ _ sig pk := match sig with
    | .ed25519 b | .secp256k1 b | .secp256r1 b | .zkLogin b | .passkey b => b == pk
  zkLoginParses _ := true
  address k := k.pkMap.length
  toPublicKey
    | .ed25519 b | .secp256k1 b | .secp256r1 b | .zkLogin b | .passkey b => .ok b
  toCompressed sig := .ok sig

/-- Two of the keys 1, 2 and 3, each of weight one. -/
def twoOfThree : MultiSigPublicKey Nat := ⟨[(1, 1), (2, 1), (3, 1)], 2⟩

/-- The parameters of a chain that accepts neither zkLogin nor passkey inside multisig. -/
def strictParams : VerifyParams := ⟨false, false, false⟩

/-- Without its gate the converse fails: two zkLogin signatures valid for distinct keys of
enough weight, given in the keys' order, combine into a multisig that `verify_claims`
rejects on a chain that does not accept zkLogin inside multisig. -/
theorem combine_zkLogin_rejected :
    twoOfThree.validate = .ok twoOfThree ∧
      testScheme.valid strictParams () (.zkLogin 1) 1 ∧
      testScheme.valid strictParams () (.zkLogin 2) 2 ∧
      MultiSig.combine testScheme [.zkLogin 1, .zkLogin 2] twoOfThree =
        .ok ⟨[.zkLogin 1, .zkLogin 2], 3, twoOfThree⟩ ∧
      MultiSig.verifyClaims testScheme strictParams ()
          ⟨[.zkLogin 1, .zkLogin 2], 3, twoOfThree⟩ (testScheme.address twoOfThree) =
        .error (.invalidSignature "zkLogin sig not supported inside multisig") := by
  decide

/-- The first and the third key sign with Ed25519: the converse combines their signatures
into a multisig that verifies, and what verifies has a valid key and bitmap. -/
theorem multisig_weightCheck_firstAndThird :
    ∃ ms, MultiSig.combine testScheme ([0, 2].map fun i => .ed25519 (i + 1)) twoOfThree =
        .ok ms ∧
      ms.verifyClaims testScheme strictParams () (testScheme.address twoOfThree) = .ok () ∧
      ms.multisigPk.Valid ∧ ms.bitmap ≤ maxBitmapValue := by
  obtain ⟨ms, hcombine, hverify⟩ := (multisig_weightCheck_sound_complete testScheme).2
    strictParams () twoOfThree twoOfThree [0, 2] (· + 1) (fun i => .ed25519 (i + 1))
    (fun i => .ed25519 (i + 1)) (by decide) (by decide)
    (fun i hi => by rcases List.mem_pair.1 hi with rfl | rfl <;> exact ⟨1, rfl⟩)
    (by decide) (by decide) (by decide) (by decide) (by decide)
  obtain ⟨hvalid, hle, -⟩ := (multisig_weightCheck_sound_complete testScheme).1 _ _ _ _ hverify
  exact ⟨ms, hcombine, hverify, hvalid, hle⟩

end Multisig

end Rtd
