import Rtd.Block
import Rtd.OrderedMap

/-!
`CertifierState` (`consensus/core/src/transaction_certifier.rs`): the votes received on
each block and its transactions, the blocks it certifies for the fast path, and garbage
collection by round.

Reject votes on a transaction are counted once per authority, from the blocks that carry
them; accept votes on a whole block come from the blocks one round above it that an own
proposed block links to. A block is certified once its accept votes reach a quorum and each
transaction with reject votes is either rejected by a quorum or keeps a quorum of accept
votes net of its reject votes.

The committee stands for the context. The clock, the metrics and the hostnames they read
are left out; so is the channel the certified blocks are sent on. Stakes are counted as
natural numbers; on a committee whose stakes add up below `2 ^ 64` they are the source's
`u64` counts, and the theorem over a run assumes it.
-/

set_option autoImplicit false

namespace Rtd

/-- `BlockTransactionVotes`: the transactions of one block that a block votes to reject. -/
structure BlockTransactionVotes where
  blockRef : BlockRef
  rejects : List Nat
  deriving DecidableEq, Repr

/-- A verified block with what the fast path reads besides the header: how many
transactions it carries and its votes on the transactions of other blocks. -/
structure VerifiedBlock extends Block where
  numTransactions : Nat
  transactionVotes : List BlockTransactionVotes
  deriving DecidableEq, Repr

namespace TransactionCertifier

structure CertifiedBlock where
  block : VerifiedBlock
  rejected : List Nat
  deriving DecidableEq, Repr

/-- `VoteInfo`: the votes on one block, possibly received before the block itself. -/
structure VoteInfo where
  block : Option VerifiedBlock
  ownRejectTxnVotes : List Nat
  acceptBlockVotes : StakeAggregator
  rejectTxnVotes : OrderedMap Nat StakeAggregator
  isCertified : Bool

def VoteInfo.default : VoteInfo := ⟨none, [], StakeAggregator.new, OrderedMap.empty, false⟩

structure CertifierState where
  votes : OrderedMap BlockRef VoteInfo
  gcRound : Nat

/-- `CertifierState::new`. -/
def CertifierState.new : CertifierState := ⟨OrderedMap.empty, genesisRound⟩

variable (c : Committee)

/-- The loop of `take_certified_output` over the reject votes in index order: the indices
rejected by a quorum, or `none` at a transaction that is neither rejected nor accepted by a
quorum net of its reject votes. -/
def rejectedLoop (accept : Nat) : List (Nat × StakeAggregator) → Option (List Nat)
  | [] => some []
  | (idx, rejectVotes) :: rest =>
    if c.reachedQuorum rejectVotes.stake then (rejectedLoop accept rest).map (idx :: ·)
    else if accept - rejectVotes.stake < c.quorumThreshold.toNat then none
    else rejectedLoop accept rest

/-- `VoteInfo::take_certified_output`: the certified block, if it can be certified now, and
the vote info with the block marked certified. -/
def VoteInfo.takeCertifiedOutput (v : VoteInfo) : Option CertifiedBlock × VoteInfo :=
  if v.isCertified then (none, v)
  else match v.block with
    | none => (none, v)
    | some block =>
      if !c.reachedQuorum v.acceptBlockVotes.stake then (none, v)
      else match rejectedLoop c v.acceptBlockVotes.stake v.rejectTxnVotes.entries with
        | none => (none, v)
        | some rejected => (some ⟨block, rejected⟩, { v with isCertified := true })

/-- One reject vote of `author` on the transaction `reject`, counted once. -/
def addReject (author : Nat) (v : VoteInfo) (reject : Nat) : VoteInfo :=
  let agg := (v.rejectTxnVotes.entry reject StakeAggregator.new).addUnique author c
  { v with rejectTxnVotes := v.rejectTxnVotes.insert reject agg.1 }

/-- The reject votes of `author` on the transactions `rejects`. -/
def addRejects (author : Nat) (v : VoteInfo) (rejects : List Nat) : VoteInfo :=
  rejects.foldl (addReject c author) v

/-- The loop of `add_voted_block` over the transaction votes the block carries. -/
def addTransactionVotes (author gcRound : Nat) :
    List BlockTransactionVotes → OrderedMap BlockRef VoteInfo → List CertifiedBlock →
      OrderedMap BlockRef VoteInfo × List CertifiedBlock
  | [], votes, out => (votes, out)
  | blockVotes :: rest, votes, out =>
    if blockVotes.blockRef.round ≤ gcRound then
      addTransactionVotes author gcRound rest votes out
    else
      let v := addRejects c author (votes.entry blockVotes.blockRef VoteInfo.default)
        blockVotes.rejects
      let r := v.takeCertifiedOutput c
      addTransactionVotes author gcRound rest (votes.insert blockVotes.blockRef r.2)
        (out ++ r.1.toList)

/-- `CertifierState::add_voted_block`. -/
def addVotedBlock (s : CertifierState) (votedBlock : VerifiedBlock)
    (rejectTxnVotes : List Nat) : List CertifiedBlock × CertifierState :=
  if votedBlock.round ≤ s.gcRound then ([], s)
  else
    let v := s.votes.entry votedBlock.reference VoteInfo.default
    let votes := s.votes.insert votedBlock.reference v
    if v.block.isSome then ([], { s with votes })
    else
      let votes := votes.insert votedBlock.reference
        { v with block := some votedBlock, ownRejectTxnVotes := rejectTxnVotes }
      let r := addTransactionVotes c votedBlock.author s.gcRound votedBlock.transactionVotes
        votes []
      (r.2, { s with votes := r.1 })

/-- `CertifierState::add_voted_blocks`. -/
def addVotedBlocks (s : CertifierState) :
    List (VerifiedBlock × List Nat) → List CertifiedBlock × CertifierState
  | [] => ([], s)
  | (votedBlock, rejectTxnVotes) :: rest =>
    let r := addVotedBlock c s votedBlock rejectTxnVotes
    let r' := addVotedBlocks r.2 rest
    (r.1 ++ r'.1, r'.2)

/-- The accept votes of `voting` on its ancestors one round below it. -/
def addAcceptVotes (voting : VerifiedBlock) :
    List BlockRef → OrderedMap BlockRef VoteInfo → List CertifiedBlock →
      OrderedMap BlockRef VoteInfo × List CertifiedBlock
  | [], votes, out => (votes, out)
  | target :: rest, votes, out =>
    if target.round + 1 ≠ voting.round then addAcceptVotes voting rest votes out
    else match votes.get? target with
      | none => addAcceptVotes voting rest votes out
      | some v =>
        let v := { v with acceptBlockVotes := (v.acceptBlockVotes.addUnique voting.author c).1 }
        let r := v.takeCertifiedOutput c
        addAcceptVotes voting rest (votes.insert target r.2) (out ++ r.1.toList)

/-- The loop of `add_proposed_block` over the ancestors one round below the proposed
block, whose own ancestors they vote on. -/
def addProposedVotes (round : Nat) :
    List BlockRef → OrderedMap BlockRef VoteInfo → List CertifiedBlock →
      OrderedMap BlockRef VoteInfo × List CertifiedBlock
  | [], votes, out => (votes, out)
  | votingAncestor :: rest, votes, out =>
    if votingAncestor.round + 1 ≠ round then addProposedVotes round rest votes out
    else match votes.get? votingAncestor with
      | none => addProposedVotes round rest votes out
      | some info => match info.block with
        | none => addProposedVotes round rest votes out
        | some voting =>
          let r := addAcceptVotes c voting voting.ancestors votes out
          addProposedVotes round rest r.1 r.2

/-- `CertifierState::add_proposed_block`. -/
def addProposedBlock (s : CertifierState) (proposedBlock : VerifiedBlock) :
    List CertifiedBlock × CertifierState :=
  if proposedBlock.round ≤ s.gcRound + 2 then ([], s)
  else if !s.votes.contains proposedBlock.reference then ([], s)
  else
    let r := addProposedVotes c proposedBlock.round proposedBlock.ancestors s.votes []
    (r.2, { s with votes := r.1 })

/-- `CertifierState::update_gc_round`: the entries are popped from the first for as long
as their round is at most the new GC round. -/
def updateGcRound (s : CertifierState) (gcRound : Nat) : CertifierState :=
  { votes := s.votes.dropWhile fun r => decide (r.round ≤ gcRound), gcRound }

/-- `TransactionCertifier::run_gc`: `none` where its assertion against the GC round of
the DAG state panics. -/
def runGc (dagStateGcRound : Nat) (s : CertifierState) (gcRound : Nat) :
    Option CertifierState :=
  if gcRound ≤ dagStateGcRound then some (updateGcRound s gcRound) else none

/-- `TransactionCertifier::get_reject_votes`: each transaction of the block with reject
votes and their stake, in index order, or `none` where the block has no vote info. The
indices are whatever the voting blocks named. -/
def CertifierState.getRejectVotes (s : CertifierState) (blockRef : BlockRef) :
    Option (List (Nat × Nat)) :=
  (s.votes.get? blockRef).map fun v => v.rejectTxnVotes.entries.map fun p => (p.1, p.2.stake)

/-! ### Certifying one block -/

section Take

theorem rejectedLoop_spec {accept : Nat} {l : List (Nat × StakeAggregator)} :
    ∀ {rejected : List Nat}, rejectedLoop c accept l = some rejected →
      (∀ i ∈ rejected, ∃ a, (i, a) ∈ l ∧ c.reachedQuorum a.stake = true) ∧
      ∀ i a, (i, a) ∈ l → i ∉ rejected → c.quorumThreshold.toNat ≤ accept - a.stake := by
  induction l with
  | nil =>
    intro rejected h
    cases h
    simp
  | cons e rest ih =>
    obtain ⟨idx, a⟩ := e
    intro rejected h
    unfold rejectedLoop at h
    split_ifs at h with hq hlow
    · -- rejected by a quorum: the index heads the list
      obtain ⟨rejected', hrest, rfl⟩ := Option.map_eq_some_iff.1 h
      obtain ⟨hrej, hacc⟩ := ih hrest
      refine ⟨fun i hi => ?_, fun i a' hia hi => ?_⟩
      · rcases List.mem_cons.1 hi with rfl | hi
        · exact ⟨a, List.mem_cons_self, hq⟩
        · obtain ⟨a', ha', hq'⟩ := hrej i hi
          exact ⟨a', List.mem_cons_of_mem _ ha', hq'⟩
      · rcases List.mem_cons.1 hia with heq | hia
        · exact absurd (List.mem_cons.2 (.inl (Prod.mk.inj heq).1)) hi
        · exact hacc i a' hia fun h' => hi (List.mem_cons_of_mem _ h')
    · -- neither rejected nor accepted: the block is not certified, so this is the third case
      obtain ⟨hrej, hacc⟩ := ih h
      refine ⟨fun i hi => ?_, fun i a' hia hi => ?_⟩
      · obtain ⟨a', ha', hq'⟩ := hrej i hi
        exact ⟨a', List.mem_cons_of_mem _ ha', hq'⟩
      · rcases List.mem_cons.1 hia with heq | hia
        · obtain ⟨rfl, rfl⟩ := Prod.mk.inj heq
          omega
        · exact hacc i a' hia hi

/-- What taking the certified output can do: nothing, or certify the block from its votes
and mark it. -/
theorem takeCertifiedOutput_cases (v : VoteInfo) :
    ((v.takeCertifiedOutput c).1 = none ∧ (v.takeCertifiedOutput c).2 = v) ∨
      ∃ block rejected, v.takeCertifiedOutput c =
          (some ⟨block, rejected⟩, { v with isCertified := true }) ∧
        v.isCertified = false ∧ v.block = some block ∧
        c.reachedQuorum v.acceptBlockVotes.stake = true ∧
        rejectedLoop c v.acceptBlockVotes.stake v.rejectTxnVotes.entries = some rejected := by
  unfold VoteInfo.takeCertifiedOutput
  by_cases hc : v.isCertified = true
  · exact .inl (by simp [hc])
  · cases hblock : v.block with
    | none => exact .inl (by simp [hc])
    | some block =>
      by_cases hq : c.reachedQuorum v.acceptBlockVotes.stake = true
      · cases hrej : rejectedLoop c v.acceptBlockVotes.stake v.rejectTxnVotes.entries with
        | none => exact .inl (by simp [hc, hq])
        | some rejected =>
          exact .inr ⟨block, rejected, by simp [hc, hq], by simpa using hc, rfl, hq, rfl⟩
      · exact .inl (by simp [hc, hq])

end Take

/-! ### What the votes rest on -/

section Sound

variable (R : List VerifiedBlock)

/-- The votes on the block at `k` as the blocks of `R` cast them: each reject vote on a
transaction from a block that carries it, each accept vote from a block one round above
that links to it, and every stake that of the distinct authors counted. -/
structure Sound (k : BlockRef) (v : VoteInfo) : Prop where
  block : ∀ b, v.block = some b → b.reference = k ∧ b ∈ R
  accept_counts : v.acceptBlockVotes.Counts c
  accept_from : ∀ x ∈ v.acceptBlockVotes.votes,
    ∃ b ∈ R, b.author = x ∧ k ∈ b.ancestors ∧ k.round + 1 = b.round
  reject_counts : ∀ i a, v.rejectTxnVotes.get? i = some a → a.Counts c
  reject_from : ∀ i a, v.rejectTxnVotes.get? i = some a → ∀ x ∈ a.votes,
    ∃ b ∈ R, b.author = x ∧ ∃ bv ∈ b.transactionVotes, bv.blockRef = k ∧ i ∈ bv.rejects

/-- A certified block whose accept votes reach a quorum, whose rejected transactions each
have a quorum of reject votes, and whose other transactions with reject votes keep a quorum
of accept votes net of them, all counted as in `Sound`. -/
def Certifies (cb : CertifiedBlock) : Prop :=
  ∃ v, v.block = some cb.block ∧ Sound c R cb.block.reference v ∧
    c.reachedQuorum v.acceptBlockVotes.stake = true ∧
    (∀ i ∈ cb.rejected, ∃ a, v.rejectTxnVotes.get? i = some a ∧ c.reachedQuorum a.stake = true) ∧
    ∀ i a, v.rejectTxnVotes.get? i = some a → i ∉ cb.rejected →
      c.quorumThreshold.toNat ≤ v.acceptBlockVotes.stake - a.stake

variable {R}

theorem sound_default (k : BlockRef) : Sound c R k VoteInfo.default where
  block _ h := by cases h
  accept_counts := StakeAggregator.counts_new c
  accept_from _ h := absurd h (Finset.notMem_empty _)
  reject_counts _ _ h := by cases h
  reject_from _ _ h := by cases h

theorem Sound.certified {k : BlockRef} {v : VoteInfo} (h : Sound c R k v) (b : Bool) :
    Sound c R k { v with isCertified := b } :=
  ⟨h.block, h.accept_counts, h.accept_from, h.reject_counts, h.reject_from⟩

theorem Sound.certifies {k : BlockRef} {v : VoteInfo} (h : Sound c R k v) {block : VerifiedBlock}
    {rejected : List Nat} (hblock : v.block = some block)
    (hq : c.reachedQuorum v.acceptBlockVotes.stake = true)
    (hrej : rejectedLoop c v.acceptBlockVotes.stake v.rejectTxnVotes.entries = some rejected) :
    Certifies c R ⟨block, rejected⟩ := by
  obtain ⟨hrejected, hacc⟩ := rejectedLoop_spec c hrej
  have hk := (h.block block hblock).1
  refine ⟨v, hblock, hk ▸ h, hq, fun i hi => ?_, fun i a ha hi => ?_⟩
  · obtain ⟨a, ha, hqa⟩ := hrejected i hi
    exact ⟨a, OrderedMap.get?_eq_some_iff.2 ha, hqa⟩
  · exact hacc i a (OrderedMap.get?_eq_some_iff.1 ha) hi

/-- A reject vote of `author` on transaction `i`, carried by a block of `R` by that
author. -/
theorem Sound.reject {k : BlockRef} {v : VoteInfo} (h : Sound c R k v) {author i : Nat}
    (hfrom : ∃ b ∈ R, b.author = author ∧
      ∃ bv ∈ b.transactionVotes, bv.blockRef = k ∧ i ∈ bv.rejects) :
    Sound c R k (addReject c author v i) := by
  -- the aggregator of `i` before the vote: the stored one, or a new one
  have hold : (v.rejectTxnVotes.entry i StakeAggregator.new).Counts c ∧
      ∀ x ∈ (v.rejectTxnVotes.entry i StakeAggregator.new).votes, ∃ b ∈ R, b.author = x ∧
        ∃ bv ∈ b.transactionVotes, bv.blockRef = k ∧ i ∈ bv.rejects := by
    cases hi : v.rejectTxnVotes.get? i with
    | none =>
      rw [OrderedMap.entry_of_get?_eq_none hi]
      exact ⟨StakeAggregator.counts_new c, fun x hx => absurd hx (Finset.notMem_empty _)⟩
    | some a =>
      rw [OrderedMap.entry_of_get? hi]
      exact ⟨h.reject_counts i a hi, h.reject_from i a hi⟩
  refine ⟨h.block, h.accept_counts, h.accept_from, fun j a hj => ?_, fun j a hj x hx => ?_⟩
  · simp only [addReject, OrderedMap.get?_insert] at hj
    split_ifs at hj with hji
    · cases hj
      exact StakeAggregator.counts_insertVote hold.1 author
    · exact h.reject_counts j a hj
  · simp only [addReject, OrderedMap.get?_insert] at hj
    split_ifs at hj with hji
    · cases hj
      subst hji
      simp only [StakeAggregator.addUnique, StakeAggregator.insertVote_votes,
        Finset.mem_insert] at hx
      rcases hx with rfl | hx
      · exact hfrom
      · exact hold.2 x hx
    · exact h.reject_from j a hj x hx

theorem Sound.rejects {k : BlockRef} {author : Nat} {b : VerifiedBlock}
    {bv : BlockTransactionVotes} (hb : b ∈ R) (hauthor : b.author = author)
    (hbv : bv ∈ b.transactionVotes) (hk : bv.blockRef = k) :
    ∀ (rejects : List Nat) {v : VoteInfo}, (∀ i ∈ rejects, i ∈ bv.rejects) → Sound c R k v →
      Sound c R k (addRejects c author v rejects) := by
  intro rejects
  induction rejects with
  | nil => exact fun _ h => h
  | cons i rest ih =>
    intro v hsub h
    exact ih (fun j hj => hsub j (List.mem_cons_of_mem _ hj))
      (h.reject c ⟨b, hb, hauthor, bv, hbv, hk, hsub i List.mem_cons_self⟩)

theorem addRejects_isCertified (author : Nat) (rejects : List Nat) :
    ∀ v : VoteInfo, (addRejects c author v rejects).isCertified = v.isCertified := by
  induction rejects with
  | nil => exact fun _ => rfl
  | cons i rest ih => exact fun v => ih (addReject c author v i)

/-- An accept vote of `voting`, a block of `R` one round above `k` that links to it. -/
theorem Sound.accept {k : BlockRef} {v : VoteInfo} (h : Sound c R k v) {voting : VerifiedBlock}
    (hvoting : voting ∈ R) (hk : k ∈ voting.ancestors) (hround : k.round + 1 = voting.round) :
    Sound c R k
      { v with acceptBlockVotes := (v.acceptBlockVotes.addUnique voting.author c).1 } := by
  refine ⟨h.block, StakeAggregator.counts_insertVote h.accept_counts _, fun x hx => ?_,
    h.reject_counts, h.reject_from⟩
  simp only [StakeAggregator.addUnique, StakeAggregator.insertVote_votes,
    Finset.mem_insert] at hx
  rcases hx with rfl | hx
  · exact ⟨voting, hvoting, rfl, hk, hround⟩
  · exact h.accept_from x hx

theorem Sound.setBlock {k : BlockRef} {v : VoteInfo} (h : Sound c R k v) {b : VerifiedBlock}
    (hb : b ∈ R) (hk : b.reference = k) (own : List Nat) :
    Sound c R k { v with block := some b, ownRejectTxnVotes := own } := by
  refine ⟨fun b' hb' => ?_, h.accept_counts, h.accept_from, h.reject_counts, h.reject_from⟩
  cases hb'
  exact ⟨hk, hb⟩

end Sound

/-! ### The invariant of the vote map -/

section Inv

variable (R : List VerifiedBlock)

/-- The vote map at GC round `gcRound`, with `out` the blocks certified so far: every
entry lies above the GC round and rests on the votes of `R`; each block is certified once,
and each certified block is either below the GC round or still marked certified. -/
structure Inv (gcRound : Nat) (votes : OrderedMap BlockRef VoteInfo)
    (out : List CertifiedBlock) : Prop where
  entries : ∀ k v, votes.get? k = some v → gcRound < k.round ∧ Sound c R k v
  nodup : (out.map fun cb => cb.block.reference).Nodup
  output : ∀ cb ∈ out, cb.block.reference.round ≤ gcRound ∨
    ∃ v, votes.get? cb.block.reference = some v ∧ v.isCertified = true
  certifies : ∀ cb ∈ out, Certifies c R cb

variable {R} {gcRound : Nat} {votes : OrderedMap BlockRef VoteInfo} {out : List CertifiedBlock}

theorem inv_empty (gcRound : Nat) : Inv c R gcRound OrderedMap.empty [] where
  entries _ _ h := by cases h
  nodup := List.nodup_nil
  output _ h := absurd h List.not_mem_nil
  certifies _ h := absurd h List.not_mem_nil

theorem Inv.sound_entry (h : Inv c R gcRound votes out) (k : BlockRef) :
    Sound c R k (votes.entry k VoteInfo.default) := by
  cases hk : votes.get? k with
  | none =>
    rw [OrderedMap.entry_of_get?_eq_none hk]
    exact sound_default c k
  | some v =>
    rw [OrderedMap.entry_of_get? hk]
    exact (h.entries k v hk).2

/-- Storing a vote info above the GC round that rests on `R` and keeps the key's
certification. -/
theorem Inv.insert (h : Inv c R gcRound votes out) {k : BlockRef} {v : VoteInfo}
    (hk : gcRound < k.round) (hv : Sound c R k v)
    (hcert : ∀ v0, votes.get? k = some v0 → v0.isCertified = true → v.isCertified = true) :
    Inv c R gcRound (votes.insert k v) out where
  entries k' v' hk' := by
    rw [OrderedMap.get?_insert] at hk'
    split_ifs at hk' with heq
    · cases hk'
      exact heq ▸ ⟨hk, hv⟩
    · exact h.entries k' v' hk'
  nodup := h.nodup
  output cb hcb := by
    rcases h.output cb hcb with hlow | ⟨v0, hv0, hc0⟩
    · exact .inl hlow
    · refine .inr ?_
      rw [OrderedMap.get?_insert]
      split_ifs with heq
      · exact ⟨v, rfl, hcert v0 (heq ▸ hv0) hc0⟩
      · exact ⟨v0, hv0, hc0⟩
  certifies := h.certifies

/-- Storing a vote info and taking its certified output: a block certified here was not
certified before, since its entry was not marked. -/
theorem Inv.take (h : Inv c R gcRound votes out) {k : BlockRef} {v : VoteInfo}
    (hk : gcRound < k.round) (hv : Sound c R k v)
    (hcert : ∀ v0, votes.get? k = some v0 → v0.isCertified = true → v.isCertified = true) :
    Inv c R gcRound (votes.insert k (v.takeCertifiedOutput c).2)
      (out ++ (v.takeCertifiedOutput c).1.toList) := by
  rcases takeCertifiedOutput_cases c v with ⟨hnone, hsame⟩ | ⟨block, rejected, htake, hc, hblock,
    hq, hrej⟩
  · rw [hnone, hsame, Option.toList_none, List.append_nil]
    exact h.insert c hk hv hcert
  · rw [htake]
    have hins := h.insert c hk (hv.certified c true) fun _ _ _ => rfl
    have hkey : block.reference = k := (hv.block block hblock).1
    -- no block certified so far has this key
    have hfresh : k ∉ out.map fun cb => cb.block.reference := by
      intro hmem
      obtain ⟨cb, hcb, hcbk⟩ := List.mem_map.1 hmem
      rcases h.output cb hcb with hlow | ⟨v0, hv0, hc0⟩
      · rw [hcbk] at hlow
        omega
      · rw [hcbk] at hv0
        exact absurd (hcert v0 hv0 hc0) (by simp [hc])
    refine ⟨hins.entries, ?_, fun cb hcb => ?_, fun cb hcb => ?_⟩
    · simpa [List.nodup_append, hkey] using ⟨h.nodup, fun cb hcb heq => hfresh (heq ▸
        List.mem_map_of_mem hcb)⟩
    · rcases List.mem_append.1 hcb with hcb | hcb
      · exact hins.output cb hcb
      · rw [Option.toList_some, List.mem_singleton] at hcb
        subst hcb
        exact .inr ⟨_, by rw [hkey, OrderedMap.get?_insert_self], rfl⟩
    · rcases List.mem_append.1 hcb with hcb | hcb
      · exact h.certifies cb hcb
      · rw [Option.toList_some, List.mem_singleton] at hcb
        subst hcb
        exact hv.certifies c hblock hq hrej

/-! #### The loops -/

theorem inv_addTransactionVotes {b : VerifiedBlock} (hb : b ∈ R) (pre : List CertifiedBlock) :
    ∀ (l : List BlockTransactionVotes) (votes : OrderedMap BlockRef VoteInfo)
      (acc : List CertifiedBlock), (∀ bv ∈ l, bv ∈ b.transactionVotes) →
      Inv c R gcRound votes (pre ++ acc) →
      Inv c R gcRound (addTransactionVotes c b.author gcRound l votes acc).1
        (pre ++ (addTransactionVotes c b.author gcRound l votes acc).2) := by
  intro l
  induction l with
  | nil => exact fun _ _ _ h => h
  | cons bv rest ih =>
    intro votes acc hl h
    have hrest : ∀ bv' ∈ rest, bv' ∈ b.transactionVotes := fun bv' h' =>
      hl bv' (List.mem_cons_of_mem _ h')
    unfold addTransactionVotes
    split_ifs with hround
    · exact ih votes acc hrest h
    · -- the votes land on the entry of the block they name, created if it is new
      have hv := Sound.rejects c hb rfl (hl bv List.mem_cons_self) rfl bv.rejects (fun _ hi => hi)
        (h.sound_entry c bv.blockRef)
      have hstep := h.take c (Nat.lt_of_not_le hround) hv fun v0 hv0 hc0 => by
        rw [addRejects_isCertified, OrderedMap.entry_of_get? hv0]
        exact hc0
      rw [List.append_assoc] at hstep
      exact ih _ _ hrest hstep

theorem inv_addAcceptVotes {voting : VerifiedBlock} (hvoting : voting ∈ R)
    (pre : List CertifiedBlock) :
    ∀ (l : List BlockRef) (votes : OrderedMap BlockRef VoteInfo) (acc : List CertifiedBlock),
      (∀ t ∈ l, t ∈ voting.ancestors) → Inv c R gcRound votes (pre ++ acc) →
      Inv c R gcRound (addAcceptVotes c voting l votes acc).1
        (pre ++ (addAcceptVotes c voting l votes acc).2) := by
  intro l
  induction l with
  | nil => exact fun _ _ _ h => h
  | cons target rest ih =>
    intro votes acc hl h
    have hrest : ∀ t ∈ rest, t ∈ voting.ancestors := fun t ht => hl t (List.mem_cons_of_mem _ ht)
    unfold addAcceptVotes
    split_ifs with hround
    · exact ih votes acc hrest h
    · split
      · exact ih votes acc hrest h
      · -- only a stored block receives accept votes, so the key stays above the GC round
        rename_i v hget
        obtain ⟨hk, hsound⟩ := h.entries target v hget
        have hv := hsound.accept c hvoting (hl target List.mem_cons_self) (not_not.1 hround)
        have hstep := h.take c hk hv fun v0 hv0 hc0 => by
          rw [hget] at hv0
          cases hv0
          exact hc0
        rw [List.append_assoc] at hstep
        exact ih _ _ hrest hstep

theorem inv_addProposedVotes (round : Nat) (pre : List CertifiedBlock) :
    ∀ (l : List BlockRef) (votes : OrderedMap BlockRef VoteInfo) (acc : List CertifiedBlock),
      Inv c R gcRound votes (pre ++ acc) →
      Inv c R gcRound (addProposedVotes c round l votes acc).1
        (pre ++ (addProposedVotes c round l votes acc).2) := by
  intro l
  induction l with
  | nil => exact fun _ _ h => h
  | cons votingAncestor rest ih =>
    intro votes acc h
    unfold addProposedVotes
    split_ifs
    · exact ih votes acc h
    · split
      · exact ih votes acc h
      · rename_i info hget
        split
        · exact ih votes acc h
        · -- the voting block is the one stored for the ancestor, so it is a block of `R`
          rename_i voting hblock
          have hvoting := ((h.entries votingAncestor info hget).2.block voting hblock).2
          exact ih _ _ (inv_addAcceptVotes c hvoting pre voting.ancestors votes acc
            (fun _ ht => ht) h)

/-! #### The calls -/

theorem inv_addVotedBlock {s : CertifierState} (h : Inv c R s.gcRound s.votes out)
    {b : VerifiedBlock} (hb : b ∈ R) (own : List Nat) :
    Inv c R (addVotedBlock c s b own).2.gcRound (addVotedBlock c s b own).2.votes
      (out ++ (addVotedBlock c s b own).1) := by
  have hkeep : ∀ v0, s.votes.get? b.reference = some v0 → v0.isCertified = true →
      (s.votes.entry b.reference VoteInfo.default).isCertified = true := fun v0 hv0 hc0 => by
    rw [OrderedMap.entry_of_get? hv0]
    exact hc0
  unfold addVotedBlock
  dsimp only
  split_ifs with hround hsome
  · simpa using h
  · -- the block was stored already: its entry is stored again as it was
    simpa using h.insert c (Nat.lt_of_not_le hround) (h.sound_entry c _) hkeep
  · have h1 := h.insert c (Nat.lt_of_not_le hround) (h.sound_entry c _) hkeep
    have h2 := h1.insert c (Nat.lt_of_not_le hround) ((h.sound_entry c _).setBlock c hb rfl own)
      fun v0 hv0 hc0 => by
        rw [OrderedMap.get?_insert_self] at hv0
        cases hv0
        exact hc0
    rw [← List.append_nil out] at h2
    simpa using inv_addTransactionVotes c hb out b.transactionVotes _ [] (fun _ h => h) h2

theorem gcRound_addVotedBlock (s : CertifierState) (b : VerifiedBlock) (own : List Nat) :
    (addVotedBlock c s b own).2.gcRound = s.gcRound := by
  unfold addVotedBlock
  dsimp only
  split_ifs <;> rfl

theorem inv_addVotedBlocks :
    ∀ (l : List (VerifiedBlock × List Nat)) (s : CertifierState) (out : List CertifiedBlock),
      (∀ p ∈ l, p.1 ∈ R) → Inv c R s.gcRound s.votes out →
      Inv c R (addVotedBlocks c s l).2.gcRound (addVotedBlocks c s l).2.votes
        (out ++ (addVotedBlocks c s l).1) ∧ (addVotedBlocks c s l).2.gcRound = s.gcRound := by
  intro l
  induction l with
  | nil => exact fun s out _ h => by simpa [addVotedBlocks] using h
  | cons p rest ih =>
    obtain ⟨b, own⟩ := p
    intro s out hl h
    have h1 := inv_addVotedBlock c h (hl (b, own) List.mem_cons_self) own
    obtain ⟨h2, hgc⟩ := ih _ _ (fun p hp => hl p (List.mem_cons_of_mem _ hp)) h1
    rw [gcRound_addVotedBlock] at hgc
    refine ⟨?_, hgc⟩
    simpa [addVotedBlocks, List.append_assoc] using h2

theorem inv_addProposedBlock {s : CertifierState} (h : Inv c R s.gcRound s.votes out)
    (b : VerifiedBlock) :
    Inv c R (addProposedBlock c s b).2.gcRound (addProposedBlock c s b).2.votes
      (out ++ (addProposedBlock c s b).1) := by
  unfold addProposedBlock
  split_ifs
  · simpa using h
  · simpa using h
  · rw [← List.append_nil out] at h
    simpa using inv_addProposedVotes c b.round out b.ancestors s.votes [] h

theorem gcRound_addProposedBlock (s : CertifierState) (b : VerifiedBlock) :
    (addProposedBlock c s b).2.gcRound = s.gcRound := by
  unfold addProposedBlock
  split_ifs <;> rfl

/-- Raising the GC round drops exactly the entries at or below it; a block certified earlier
either goes below the new round or keeps its marked entry. -/
theorem inv_updateGcRound {s : CertifierState} (h : Inv c R s.gcRound s.votes out) {g : Nat}
    (hg : s.gcRound ≤ g) : Inv c R g (updateGcRound s g).votes out := by
  -- the round test passes below every key it passes, since keys are ordered by round first
  have hp : ∀ k k' : BlockRef, k ≤ k' → decide (k'.round ≤ g) = true →
      decide (k.round ≤ g) = true := by
    intro k k' hle hk'
    simp only [decide_eq_true_eq] at hk' ⊢
    exact Nat.le_trans (BlockRef.round_le_of_le hle) hk'
  have hdrop : ∀ k, (updateGcRound s g).votes.get? k =
      if k.round ≤ g then none else s.votes.get? k := fun k => by
    simpa [updateGcRound] using OrderedMap.get?_dropWhile (m := s.votes) hp k
  refine ⟨fun k v hk => ?_, h.nodup, fun cb hcb => ?_, h.certifies⟩
  · rw [hdrop] at hk
    split_ifs at hk with hkg
    exact ⟨Nat.lt_of_not_le hkg, (h.entries k v hk).2⟩
  · by_cases hlow : cb.block.reference.round ≤ g
    · exact .inl hlow
    · rcases h.output cb hcb with hold | hcert
      · exact .inl (Nat.le_trans hold hg)
      · rw [hdrop, if_neg hlow]
        exact .inr hcert

end Inv

/-! ### Runs -/

/-- The calls a run interleaves. -/
inductive Op where
  | addVotedBlocks (votedBlocks : List (VerifiedBlock × List Nat))
  | addProposedBlock (proposedBlock : VerifiedBlock)
  | runGc (gcRound : Nat)
  deriving DecidableEq, Repr

/-- One call; `run_gc` as a call whose assertion against the GC round of the DAG state
holds. -/
def Op.apply (s : CertifierState) : Op → List CertifiedBlock × CertifierState
  | .addVotedBlocks votedBlocks => TransactionCertifier.addVotedBlocks c s votedBlocks
  | .addProposedBlock proposedBlock => TransactionCertifier.addProposedBlock c s proposedBlock
  | .runGc gcRound => ([], updateGcRound s gcRound)

/-- A run: the final state and every certified block output, in order. -/
def run (s : CertifierState) : List Op → List CertifiedBlock × CertifierState
  | [] => ([], s)
  | op :: ops =>
    let r := op.apply c s
    let r' := run r.2 ops
    (r.1 ++ r'.1, r'.2)

/-- The blocks a call hands to the certifier to vote on. -/
def Op.votedBlocks : Op → List VerifiedBlock
  | .addVotedBlocks votedBlocks => votedBlocks.map Prod.fst
  | _ => []

def Op.gcRound? : Op → Option Nat
  | .runGc gcRound => some gcRound
  | _ => none

section Run

variable {R : List VerifiedBlock}

/-- One call keeps the invariant, and the GC rounds after it still do not decrease. -/
theorem inv_apply {op : Op} {ops : List Op} {s : CertifierState} {out : List CertifiedBlock}
    (h : Inv c R s.gcRound s.votes out) (hR : ∀ b ∈ op.votedBlocks, b ∈ R)
    (hgc : (s.gcRound :: (op :: ops).filterMap Op.gcRound?).Pairwise (· ≤ ·)) :
    Inv c R (op.apply c s).2.gcRound (op.apply c s).2.votes (out ++ (op.apply c s).1) ∧
      ((op.apply c s).2.gcRound :: ops.filterMap Op.gcRound?).Pairwise (· ≤ ·) := by
  cases op with
  | addVotedBlocks votedBlocks =>
    have hb : ∀ p ∈ votedBlocks, p.1 ∈ R := fun p hp => hR p.1 (List.mem_map_of_mem hp)
    obtain ⟨hinv, hgc'⟩ := inv_addVotedBlocks c votedBlocks s out hb h
    have hskip : (Op.addVotedBlocks votedBlocks :: ops).filterMap Op.gcRound? =
        ops.filterMap Op.gcRound? := rfl
    rw [hskip] at hgc
    exact ⟨hinv, by rw [Op.apply, hgc']; exact hgc⟩
  | addProposedBlock proposedBlock =>
    have hskip : (Op.addProposedBlock proposedBlock :: ops).filterMap Op.gcRound? =
        ops.filterMap Op.gcRound? := rfl
    rw [hskip] at hgc
    exact ⟨inv_addProposedBlock c h proposedBlock,
      by rw [Op.apply, gcRound_addProposedBlock]; exact hgc⟩
  | runGc g =>
    have hkeep : (Op.runGc g :: ops).filterMap Op.gcRound? = g :: ops.filterMap Op.gcRound? :=
      rfl
    rw [hkeep, List.pairwise_cons] at hgc
    have hnone : (Op.apply c s (Op.runGc g)).1 = [] := rfl
    rw [hnone, List.append_nil]
    exact ⟨inv_updateGcRound c h (hgc.1 g List.mem_cons_self), hgc.2⟩

theorem inv_run :
    ∀ (ops : List Op) (s : CertifierState) (out : List CertifiedBlock),
      Inv c R s.gcRound s.votes out → (∀ op ∈ ops, ∀ b ∈ op.votedBlocks, b ∈ R) →
      (s.gcRound :: ops.filterMap Op.gcRound?).Pairwise (· ≤ ·) →
      Inv c R (run c s ops).2.gcRound (run c s ops).2.votes (out ++ (run c s ops).1) := by
  intro ops
  induction ops with
  | nil => exact fun s out h _ _ => by simpa [run] using h
  | cons op ops ih =>
    intro s out h hR hgc
    have hstep := inv_apply c h (hR op List.mem_cons_self) hgc
    have := ih _ _ hstep.1 (fun op' hop => hR op' (List.mem_cons_of_mem _ hop)) hstep.2
    simpa [run, List.append_assoc] using this

end Run

namespace OneBlockCertified

def committee : Committee := ⟨0, 4, 3, 2, [⟨1⟩, ⟨1⟩, ⟨1⟩, ⟨1⟩]⟩

/-- A round-1 block with two transactions. -/
def target : VerifiedBlock :=
  { epoch := 0, round := 1, author := 1, digest := 0, timestampMs := 0, ancestors := [],
    numTransactions := 2, transactionVotes := [] }

/-- The round-2 block of `author` above it; that of authority 3 rejects its second
transaction. -/
def voter (author : Nat) : VerifiedBlock :=
  { epoch := 0, round := 2, author, digest := 0, timestampMs := 0,
    ancestors := [target.reference], numTransactions := 0,
    transactionVotes := if author = 3 then [⟨target.reference, [1]⟩] else [] }

def proposed : VerifiedBlock :=
  { epoch := 0, round := 3, author := 0, digest := 0, timestampMs := 0,
    ancestors := [(voter 0).reference, (voter 1).reference, (voter 2).reference,
      (voter 3).reference],
    numTransactions := 0, transactionVotes := [] }

def ops : List Op :=
  [.addVotedBlocks [(target, []), (voter 0, []), (voter 1, []), (voter 2, []), (voter 3, []),
    (proposed, [])], .addProposedBlock proposed, .runGc 1]

/- Three accept votes are not enough while one reject vote stands against the second
transaction; the fourth certifies the block, with nothing rejected. -/
example : (run committee CertifierState.new ops).1 = [⟨target, []⟩] := by
  decide

end OneBlockCertified

end TransactionCertifier

end Rtd
