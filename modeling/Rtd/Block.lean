import Rtd.Committee
import Mathlib

/-!
Blocks of the consensus DAG (`consensus/types/src/block.rs`,
`consensus/core/src/block.rs`) and `SignedBlockVerifier::verify_block`
(`consensus/core/src/block_verifier.rs`).

A `BlockDigest` is a hash of the signed block; the model keeps it as a number
and the DAGs built over blocks require distinct blocks to have distinct
references, the collision resistance the source assumes.
-/

set_option autoImplicit false

namespace Rtd

/-- `BlockRef`: round, author and digest, ordered lexicographically as derived. -/
@[ext] structure BlockRef where
  round : Nat
  author : Nat
  digest : Nat
  deriving DecidableEq, Repr

namespace BlockRef

def key (r : BlockRef) : ℕ ×ₗ (ℕ ×ₗ ℕ) := toLex (r.round, toLex (r.author, r.digest))

theorem key_injective : Function.Injective key := by
  intro a b h
  cases a; cases b
  simpa [key] using h

instance : LinearOrder BlockRef := LinearOrder.lift' key key_injective

theorem lt_iff {a b : BlockRef} :
    a < b ↔ a.round < b.round ∨ (a.round = b.round ∧
      (a.author < b.author ∨ (a.author = b.author ∧ a.digest < b.digest))) := by
  change key a < key b ↔ _
  simp only [key, Prod.Lex.toLex_lt_toLex]

theorem lt_of_round_lt {a b : BlockRef} (h : a.round < b.round) : a < b :=
  lt_iff.2 (Or.inl h)

theorem round_le_of_le {a b : BlockRef} (h : a ≤ b) : a.round ≤ b.round := by
  rcases h.lt_or_eq with hlt | rfl
  · rcases lt_iff.1 hlt with h | ⟨h, -⟩ <;> omega
  · exact le_rfl

end BlockRef

/-- `Slot`: a round and an authority. -/
structure Slot where
  round : Nat
  authority : Nat
  deriving DecidableEq, Repr

def Slot.ofRef (r : BlockRef) : Slot := ⟨r.round, r.author⟩

/-- The fields of a signed block that the modelled code reads. -/
structure Block where
  epoch : Nat
  round : Nat
  author : Nat
  digest : Nat
  timestampMs : Nat
  ancestors : List BlockRef
  deriving DecidableEq, Repr

namespace Block

def reference (b : Block) : BlockRef := ⟨b.round, b.author, b.digest⟩

def slot (b : Block) : Slot := ⟨b.round, b.author⟩

@[simp] theorem reference_round (b : Block) : b.reference.round = b.round := rfl
@[simp] theorem reference_author (b : Block) : b.reference.author = b.author := rfl
@[simp] theorem slot_ofRef_reference (b : Block) : Slot.ofRef b.reference = b.slot := rfl

end Block

/-- `GENESIS_ROUND`. -/
def genesisRound : Nat := 0

/-- The errors `verify_block` returns. -/
inductive ConsensusError where
  | wrongEpoch (expected actual : Nat)
  | unexpectedGenesisBlock
  | invalidAuthorityIndex (index max : Nat)
  | signatureInvalid
  | tooManyAncestors (count size : Nat)
  | insufficientParentStakes (parentStakes quorum : Nat)
  | invalidAncestorPosition (blockAuthority ancestorAuthority position : Nat)
  | invalidAncestorRound (ancestor block : Nat)
  | invalidGenesisAncestor (ancestor : BlockRef)
  | duplicatedAncestorsAuthority (authority : Nat)
  | transactionsInvalid
  deriving DecidableEq, Repr

namespace SignedBlockVerifier

variable (c : Committee) (genesis : List BlockRef) (block : Block)

/-- The loop of `verify_block` over the ancestors, at position `i`, with the authors
`seen` so far and the stake of the parents (ancestors one round below). -/
def checkAncestors : Nat → List BlockRef → Finset Nat → Nat → Except ConsensusError Nat
  | _, [], _, parentStakes => .ok parentStakes
  | i, ancestor :: rest, seen, parentStakes =>
    if !c.isValidIndex ancestor.author then
      .error (.invalidAuthorityIndex ancestor.author (c.size - 1))
    else if (i = 0 ∧ ancestor.author ≠ block.author) ∨ (0 < i ∧ ancestor.author = block.author) then
      .error (.invalidAncestorPosition block.author ancestor.author i)
    else if block.round ≤ ancestor.round then
      .error (.invalidAncestorRound ancestor.round block.round)
    else if ancestor.round = genesisRound ∧ ancestor ∉ genesis then
      .error (.invalidGenesisAncestor ancestor)
    else if ancestor.author ∈ seen then
      .error (.duplicatedAncestorsAuthority ancestor.author)
    else
      checkAncestors (i + 1) rest (insert ancestor.author seen)
        (if ancestor.round = block.round - 1 then parentStakes + c.stake ancestor.author
          else parentStakes)

/-- `SignedBlockVerifier::verify_block`. The signature check and the transaction
checks belong to other components; their verdicts are inputs. -/
def verifyBlock (signatureValid transactionsValid : Bool) : Except ConsensusError Unit :=
  if block.epoch ≠ c.epoch then .error (.wrongEpoch c.epoch block.epoch)
  else if block.round = 0 then .error .unexpectedGenesisBlock
  else if !c.isValidIndex block.author then .error (.invalidAuthorityIndex block.author (c.size - 1))
  else if !signatureValid then .error .signatureInvalid
  else if c.size < block.ancestors.length then
    .error (.tooManyAncestors block.ancestors.length c.size)
  else if block.ancestors.isEmpty then
    .error (.insufficientParentStakes 0 c.quorumThreshold.toNat)
  else
    match checkAncestors c genesis block 0 block.ancestors ∅ 0 with
    | .error e => .error e
    | .ok parentStakes =>
      if !c.reachedQuorum parentStakes then
        .error (.insufficientParentStakes parentStakes c.quorumThreshold.toNat)
      else if !transactionsValid then .error .transactionsInvalid
      else .ok ()

/-- The authors of the ancestors one round below the block: its parents. -/
def parentAuthors (b : Block) : Finset Nat :=
  ((b.ancestors.filter (fun a => a.round = b.round - 1)).map BlockRef.author).toFinset

/-- What a block that passed `verify_block` satisfies. -/
structure Verified (b : Block) : Prop where
  round_pos : 0 < b.round
  author_valid : b.author < c.size
  ancestor_round_lt : ∀ a ∈ b.ancestors, a.round < b.round
  ancestor_author_valid : ∀ a ∈ b.ancestors, a.author < c.size
  genesis_ancestor : ∀ a ∈ b.ancestors, a.round = genesisRound → a ∈ genesis
  first_own : ∀ a ∈ b.ancestors.head?, a.author = b.author
  authors_nodup : (b.ancestors.map BlockRef.author).Nodup
  parents_quorum : c.reachedQuorum (c.stakeOf (parentAuthors b)) = true

theorem checkAncestors_ok {i : Nat} {l : List BlockRef} {seen : Finset Nat} {s s' : Nat}
    (h : checkAncestors c genesis block i l seen s = .ok s') :
    (∀ a ∈ l, a.round < block.round ∧ a.author < c.size ∧
      (a.round = genesisRound → a ∈ genesis) ∧ a.author ∉ seen) ∧
    (l.map BlockRef.author).Nodup ∧
    (i = 0 → ∀ a ∈ l.head?, a.author = block.author) ∧
    s' = s + ((l.filter (fun a => a.round = block.round - 1)).map
      (fun a => c.stake a.author)).sum := by
  induction l generalizing i seen s with
  | nil =>
    simp only [checkAncestors, Except.ok.injEq] at h
    simp [h]
  | cons a rest ih =>
    simp only [checkAncestors] at h
    split at h
    · cases h
    rename_i hv
    split at h
    · cases h
    rename_i hpos
    split at h
    · cases h
    rename_i hround
    split at h
    · cases h
    rename_i hgen
    split at h
    · cases h
    rename_i hseen
    obtain ⟨hrest, hnodup, -, hsum⟩ := ih h
    simp only [Bool.not_eq_true', Bool.not_eq_false, Committee.isValidIndex,
      decide_eq_true_eq] at hv
    refine ⟨?_, ?_, ?_, ?_⟩
    · intro x hx
      rcases List.mem_cons.1 hx with rfl | hx
      · exact ⟨by omega, hv, fun h0 => by by_contra hn; exact hgen ⟨h0, hn⟩, hseen⟩
      · obtain ⟨h1, h2, h3, h4⟩ := hrest x hx
        exact ⟨h1, h2, h3, fun hm => h4 (Finset.mem_insert_of_mem hm)⟩
    · refine List.nodup_cons.2 ⟨fun hmem => ?_, hnodup⟩
      obtain ⟨x, hx, hxa⟩ := List.mem_map.1 hmem
      exact (hrest x hx).2.2.2 (hxa ▸ Finset.mem_insert_self _ _)
    · intro hi x hx
      simp only [List.head?_cons, Option.mem_def, Option.some.injEq] at hx
      subst hx
      by_contra hne
      exact hpos (Or.inl ⟨hi, hne⟩)
    · rw [hsum]
      by_cases hr : a.round = block.round - 1 <;> simp [hr]; omega

/-- Every block accepted by `verify_block` is `Verified`. -/
theorem verifyBlock_ok {signatureValid transactionsValid : Bool}
    (h : verifyBlock c genesis block signatureValid transactionsValid = .ok ()) :
    Verified c genesis block := by
  unfold verifyBlock at h
  split at h
  · cases h
  split at h
  · cases h
  rename_i hround
  split at h
  · cases h
  rename_i hauth
  split at h
  · cases h
  split at h
  · cases h
  split at h
  · cases h
  split at h
  · cases h
  rename_i parentStakes hcheck
  split at h
  · cases h
  rename_i hquorum
  obtain ⟨hall, hnodup, hfirst, hsum⟩ := checkAncestors_ok c genesis block hcheck
  simp only [Bool.not_eq_true', Bool.not_eq_false, Committee.isValidIndex,
    decide_eq_true_eq] at hauth hquorum
  refine ⟨by omega, hauth, fun a ha => (hall a ha).1, fun a ha => (hall a ha).2.1,
    fun a ha => (hall a ha).2.2.1, hfirst rfl, hnodup, ?_⟩
  have hfilter : ((block.ancestors.filter (fun a => a.round = block.round - 1)).map
      BlockRef.author).Nodup := (hnodup.sublist (List.filter_sublist.map _))
  rw [parentAuthors, Committee.stakeOf, List.sum_toFinset _ hfilter, List.map_map]
  have hq : c.reachedQuorum parentStakes = true := by simpa using hquorum
  rw [hsum, Nat.zero_add] at hq
  exact hq

end SignedBlockVerifier

end Rtd
