import Rtd.Bytes
import Mathlib

/-!
The coin-reservation `ObjectRef` (`rtd-types/src/coin_reservation.rs`): a reservation of an
address balance written as an object reference whose id is the accumulator object's id XOR
the chain identifier, and whose digest holds the amount (8 bytes, little-endian), the epoch
(4 bytes, little-endian) and a 20-byte magic number.

Object ids, digests and chain identifiers are 32-byte arrays; the `u64` and `u32` fields
are `UInt64` and `UInt32`, read and written through `Bytes.leBytes` and `Bytes.ofLeBytes`.
-/

set_option autoImplicit false

namespace Rtd

namespace CoinReservation

open Bytes

/-- `ObjectID`, its 32 bytes as `into_bytes` gives them. -/
structure ObjectID where
  bytes : List.Vector UInt8 32
  deriving DecidableEq

/-- `ObjectDigest`, its 32 bytes as `inner` gives them. -/
structure ObjectDigest where
  inner : List.Vector UInt8 32
  deriving DecidableEq

/-- `ChainIdentifier`, the digest of the genesis checkpoint, as `as_bytes` gives it. -/
structure ChainIdentifier where
  bytes : List.Vector UInt8 32
  deriving DecidableEq

structure SequenceNumber where
  value : UInt64
  deriving DecidableEq

/-- `ObjectRef`: `(ObjectID, SequenceNumber, ObjectDigest)`. -/
abbrev ObjectRef := ObjectID × SequenceNumber × ObjectDigest

/-- `COIN_RESERVATION_MAGIC`. -/
def coinReservationMagic : List UInt8 := List.replicate 20 0xac

structure ParsedDigest where
  epochId : UInt32
  reservationAmount : UInt64
  deriving DecidableEq

/-- `ParsedDigestError`: "Invalid digest". -/
structure ParsedDigestError where
  deriving DecidableEq

/-- `ParsedDigest::is_coin_reservation_digest`: the last 20 bytes are the magic number. -/
def ParsedDigest.isCoinReservationDigest (digest : ObjectDigest) : Bool :=
  digest.inner.toList.drop 12 == coinReservationMagic

/-- `TryFrom<ObjectDigest> for ParsedDigest`. -/
def ParsedDigest.tryFrom (digest : ObjectDigest) : Except ParsedDigestError ParsedDigest :=
  if ParsedDigest.isCoinReservationDigest digest then
    let inner := digest.inner.toList
    let reservationAmountBytes := inner.take 8
    let epochBytes := (inner.drop 8).take 4
    .ok { epochId := (ofLeBytes epochBytes).toUInt32,
          reservationAmount := (ofLeBytes reservationAmountBytes).toUInt64 }
  else .error ⟨⟩

/-- `From<ParsedDigest> for ObjectDigest`. -/
def ObjectDigest.ofParsedDigest (parsed : ParsedDigest) : ObjectDigest :=
  ⟨⟨leBytes 8 parsed.reservationAmount.toNat ++ leBytes 4 parsed.epochId.toNat ++
      coinReservationMagic, by simp [coinReservationMagic]⟩⟩

structure ParsedObjectRefWithdrawal where
  unmaskedObjectId : ObjectID
  parsedDigest : ParsedDigest
  deriving DecidableEq

/-- `mask_or_unmask_id`: the id XOR the chain identifier, byte by byte. -/
def maskOrUnmaskId (objectId : ObjectID) (chainIdentifier : ChainIdentifier) : ObjectID :=
  ⟨List.Vector.map₂ (· ^^^ ·) objectId.bytes chainIdentifier.bytes⟩

/-- `ParsedObjectRefWithdrawal::encode`. -/
def ParsedObjectRefWithdrawal.encode (p : ParsedObjectRefWithdrawal) (version : SequenceNumber)
    (chainIdentifier : ChainIdentifier) : ObjectRef :=
  (maskOrUnmaskId p.unmaskedObjectId chainIdentifier, version,
    ObjectDigest.ofParsedDigest p.parsedDigest)

/-- `ParsedObjectRefWithdrawal::parse`. -/
def ParsedObjectRefWithdrawal.parse (objectRef : ObjectRef) (chainIdentifier : ChainIdentifier) :
    Option ParsedObjectRefWithdrawal := do
  let (objectId, _version, digest) := objectRef
  let parsedDigest ← (ParsedDigest.tryFrom digest).toOption
  some { unmaskedObjectId := maskOrUnmaskId objectId chainIdentifier, parsedDigest }

/-! ### Round trips -/

section Digest

theorem ofParsedDigest_inner (parsed : ParsedDigest) :
    (ObjectDigest.ofParsedDigest parsed).inner.toList =
      leBytes 8 parsed.reservationAmount.toNat ++ leBytes 4 parsed.epochId.toNat ++
        coinReservationMagic := rfl

theorem isCoinReservationDigest_iff (digest : ObjectDigest) :
    ParsedDigest.isCoinReservationDigest digest = true ↔
      digest.inner.toList.drop 12 = coinReservationMagic := by
  simp [ParsedDigest.isCoinReservationDigest]

/-- `try_from` succeeds exactly on the digests that end with the magic number. -/
theorem tryFrom_eq_ok_iff (digest : ObjectDigest) :
    (∃ parsed, ParsedDigest.tryFrom digest = .ok parsed) ↔
      digest.inner.toList.drop 12 = coinReservationMagic := by
  rw [← isCoinReservationDigest_iff]
  unfold ParsedDigest.tryFrom
  split <;> simp_all

theorem toNat_toUInt64_ofLeBytes {bs : List UInt8} (h : bs.length = 8) :
    (ofLeBytes bs).toUInt64.toNat = ofLeBytes bs := by
  have hlt := ofLeBytes_lt bs
  rw [h] at hlt
  rw [Nat.toUInt64_eq, UInt64.toNat_ofNat', Nat.mod_eq_of_lt (by simpa using hlt)]

theorem toNat_toUInt32_ofLeBytes {bs : List UInt8} (h : bs.length = 4) :
    (ofLeBytes bs).toUInt32.toNat = ofLeBytes bs := by
  have hlt := ofLeBytes_lt bs
  rw [h] at hlt
  rw [Nat.toUInt32_eq, UInt32.toNat_ofNat', Nat.mod_eq_of_lt (by simpa using hlt)]

/-- Parsing an encoded digest gives back its amount and epoch. -/
theorem tryFrom_ofParsedDigest (parsed : ParsedDigest) :
    ParsedDigest.tryFrom (ObjectDigest.ofParsedDigest parsed) = .ok parsed := by
  have hmagic : ParsedDigest.isCoinReservationDigest (ObjectDigest.ofParsedDigest parsed) := by
    rw [isCoinReservationDigest_iff, ofParsedDigest_inner, List.drop_left' (by simp)]
  have hamount : (ObjectDigest.ofParsedDigest parsed).inner.toList.take 8 =
      leBytes 8 parsed.reservationAmount.toNat := by
    rw [ofParsedDigest_inner, List.append_assoc, List.take_left' (by simp)]
  have hepoch : ((ObjectDigest.ofParsedDigest parsed).inner.toList.drop 8).take 4 =
      leBytes 4 parsed.epochId.toNat := by
    rw [ofParsedDigest_inner, List.append_assoc, List.drop_left' (by simp),
      List.take_left' (by simp)]
  have hamount' := ofLeBytes_leBytes_of_lt (n := 8) parsed.reservationAmount.toNat_lt
  have hepoch' := ofLeBytes_leBytes_of_lt (n := 4) parsed.epochId.toNat_lt
  simp only [ParsedDigest.tryFrom, hmagic, if_true, hamount, hepoch, hamount', hepoch',
    Nat.toUInt64_eq, Nat.toUInt32_eq, UInt64.ofNat_toNat, UInt32.ofNat_toNat]

/-- A digest that `try_from` accepts is the encoding of what it reads. -/
theorem ofParsedDigest_tryFrom {digest : ObjectDigest} {parsed : ParsedDigest}
    (h : ParsedDigest.tryFrom digest = .ok parsed) :
    ObjectDigest.ofParsedDigest parsed = digest := by
  unfold ParsedDigest.tryFrom at h
  split_ifs at h with hmagic
  simp only [Except.ok.injEq] at h
  subst h
  obtain ⟨⟨l, hl⟩⟩ := digest
  replace hmagic : l.drop 12 = coinReservationMagic := (isCoinReservationDigest_iff _).1 hmagic
  have h8 : (l.take 8).length = 8 := by simp [hl]
  have h4 : ((l.drop 8).take 4).length = 4 := by simp [hl]
  apply congrArg ObjectDigest.mk
  apply Subtype.ext
  show leBytes 8 (ofLeBytes (l.take 8)).toUInt64.toNat ++
    leBytes 4 (ofLeBytes ((l.drop 8).take 4)).toUInt32.toNat ++ coinReservationMagic = l
  rw [toNat_toUInt64_ofLeBytes h8, toNat_toUInt32_ofLeBytes h4, leBytes_ofLeBytes_of_length h8,
    leBytes_ofLeBytes_of_length h4, ← hmagic]
  -- the amount, the epoch and the magic are the digest cut at bytes 8 and 12
  rw [show 12 = 8 + 4 from rfl, ← List.drop_drop, List.append_assoc, List.take_append_drop,
    List.take_append_drop]

end Digest

theorem maskOrUnmaskId_involutive (objectId : ObjectID) (chainIdentifier : ChainIdentifier) :
    maskOrUnmaskId (maskOrUnmaskId objectId chainIdentifier) chainIdentifier = objectId := by
  obtain ⟨bytes⟩ := objectId
  simp only [maskOrUnmaskId, ObjectID.mk.injEq]
  ext i
  simp [List.Vector.get_map₂]

/-- Parsing under any chain identifier unmasks the id with that identifier. -/
theorem parse_encode (p : ParsedObjectRefWithdrawal) (version : SequenceNumber)
    (chainIdentifier chainIdentifier' : ChainIdentifier) :
    ParsedObjectRefWithdrawal.parse (p.encode version chainIdentifier) chainIdentifier' =
      some { p with
        unmaskedObjectId :=
          maskOrUnmaskId (maskOrUnmaskId p.unmaskedObjectId chainIdentifier)
            chainIdentifier' } := by
  simp [ParsedObjectRefWithdrawal.parse, ParsedObjectRefWithdrawal.encode, tryFrom_ofParsedDigest,
    Except.toOption]

theorem encode_parse {objectRef : ObjectRef} (chainIdentifier : ChainIdentifier)
    (h : ParsedDigest.isCoinReservationDigest objectRef.2.2) :
    ∃ p, ParsedObjectRefWithdrawal.parse objectRef chainIdentifier = some p ∧
      p.encode objectRef.2.1 chainIdentifier = objectRef := by
  obtain ⟨objectId, version, digest⟩ := objectRef
  obtain ⟨parsed, hparsed⟩ := (tryFrom_eq_ok_iff digest).2 ((isCoinReservationDigest_iff _).1 h)
  refine ⟨⟨maskOrUnmaskId objectId chainIdentifier, parsed⟩, ?_, ?_⟩
  · simp [ParsedObjectRefWithdrawal.parse, hparsed, Except.toOption]
  · simp [ParsedObjectRefWithdrawal.encode, maskOrUnmaskId_involutive,
      ofParsedDigest_tryFrom hparsed]

/-- The coin-reservation encoding: parsing an encoded reservation gives it back; encoding a
parsed reference whose digest ends with the magic number gives the reference back; the digest
parses exactly when it ends with the magic number; and under another chain identifier the
id parsed is the id masked with both identifiers, masking being an involution. -/
theorem coinReservation_objectRef_roundTrip :
    (∀ (p : ParsedObjectRefWithdrawal) (version : SequenceNumber) (c : ChainIdentifier),
      ParsedObjectRefWithdrawal.parse (p.encode version c) c = some p) ∧
    (∀ (objectRef : ObjectRef) (c : ChainIdentifier),
      ParsedDigest.isCoinReservationDigest objectRef.2.2 = true →
        ∃ p, ParsedObjectRefWithdrawal.parse objectRef c = some p ∧
          p.encode objectRef.2.1 c = objectRef) ∧
    (∀ digest : ObjectDigest, (∃ parsed, ParsedDigest.tryFrom digest = .ok parsed) ↔
      digest.inner.toList.drop 12 = coinReservationMagic) ∧
    (∀ (p : ParsedObjectRefWithdrawal) (version : SequenceNumber) (c c' : ChainIdentifier),
      ParsedObjectRefWithdrawal.parse (p.encode version c) c' =
        some { p with
          unmaskedObjectId := maskOrUnmaskId (maskOrUnmaskId p.unmaskedObjectId c) c' }) ∧
    ∀ (objectId : ObjectID) (c : ChainIdentifier),
      maskOrUnmaskId (maskOrUnmaskId objectId c) c = objectId := by
  refine ⟨fun p version c => ?_, fun objectRef c h => encode_parse c h, tryFrom_eq_ok_iff,
    parse_encode, maskOrUnmaskId_involutive⟩
  rw [parse_encode, maskOrUnmaskId_involutive]

/-- A chain identifier and an id for the test of a valid digest. -/
def testChainIdentifier : ChainIdentifier := ⟨⟨(List.range 32).map (·.toUInt8), by simp⟩⟩

def testObjectId : ObjectID := ⟨⟨(List.range 32).map fun i => (7 * i + 3).toUInt8, by simp⟩⟩

/-- The reference of `test_parse_object_ref_with_valid_digest`: epoch 42, amount
1232348999. -/
def testObjectRef : ObjectRef :=
  ParsedObjectRefWithdrawal.encode ⟨testObjectId, ⟨42, 1232348999⟩⟩ ⟨0⟩ testChainIdentifier

theorem coinReservation_objectRef_roundTrip_validDigest :
    ParsedDigest.isCoinReservationDigest testObjectRef.2.2 = true ∧
      ∃ p, ParsedObjectRefWithdrawal.parse testObjectRef testChainIdentifier = some p ∧
        p.encode testObjectRef.2.1 testChainIdentifier = testObjectRef :=
  ⟨by decide, coinReservation_objectRef_roundTrip.2.1 testObjectRef testChainIdentifier (by decide)⟩

end CoinReservation

end Rtd
