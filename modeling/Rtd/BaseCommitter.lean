import Rtd.DagView

/-!
The commit rule of one committer (`consensus/core/src/base_committer.rs`) and the
leader statuses it produces (`consensus/core/src/commit.rs`).

`is_certificate` keeps an `all_votes` map that caches `is_vote` per reference for
one leader block. `is_vote` is a function of the view, so the model evaluates it
each time. The panics of the source are the `CommitPanic` errors.
-/

set_option autoImplicit false

namespace Rtd

/-- `LeaderStatus`. -/
inductive LeaderStatus where
  | commit (block : Block)
  | skip (slot : Slot)
  | undecided (slot : Slot)
  deriving DecidableEq, Repr

/-- `DecidedLeader`: a committed block with whether it was committed directly, or a
skipped slot. -/
inductive DecidedLeader where
  | commit (block : Block) (direct : Bool)
  | skip (slot : Slot)
  deriving DecidableEq, Repr

/-- `Decision`. -/
inductive Decision where
  | direct
  | indirect
  | certified
  deriving DecidableEq, Repr

namespace LeaderStatus

def round : LeaderStatus → Nat
  | commit b => b.round
  | skip s => s.round
  | undecided s => s.round

def isDecided : LeaderStatus → Bool
  | undecided _ => false
  | _ => true

def intoDecidedLeader : LeaderStatus → Bool → Option DecidedLeader
  | commit b, direct => some (.commit b direct)
  | skip s, _ => some (.skip s)
  | undecided _, _ => none

end LeaderStatus

def DecidedLeader.slot : DecidedLeader → Slot
  | .commit b _ => b.slot
  | .skip s => s

/-- The two panics of the commit rule: two leader blocks with enough support in
`try_direct_decide`, and two certified leader blocks in `decide_leader_from_anchor`. -/
inductive CommitPanic where
  | moreThanOneCandidate (leader : Slot)
  | moreThanOneCertifiedLeader (wave : Nat) (leader : Slot)
  deriving DecidableEq, Repr

/-- `MINIMUM_WAVE_LENGTH`: a leader round, a voting round and a decision round. -/
def minimumWaveLength : Nat := 3

/-- `DEFAULT_WAVE_LENGTH`. -/
def defaultWaveLength : Nat := minimumWaveLength

structure BaseCommitterOptions where
  waveLength : Nat
  leaderOffset : Nat
  roundOffset : Nat
  deriving DecidableEq, Repr

/-- `BaseCommitterOptions::default`. -/
def BaseCommitterOptions.default : BaseCommitterOptions := ⟨defaultWaveLength, 0, 0⟩

/-- A committer: the committee of its context, the leader schedule's
`elect_leader (round, leader_offset)` and its options. The DAG state it reads is
passed to each function as a view. -/
structure BaseCommitter where
  committee : Committee
  leaderSchedule : Nat → Nat → Nat
  options : BaseCommitterOptions

/-- The loop of `is_certificate`, `enough_leader_blame` and `enough_leader_support`:
add the authority of every element that `counts` to a quorum aggregator and answer
`true` as soon as the quorum is reached. -/
def quorumLoop {α : Type} (c : Committee) (counts : α → Bool) (authority : α → Nat) :
    StakeAggregator → List α → Bool
  | _, [] => false
  | agg, x :: rest =>
    if counts x then
      let (agg, reached) := agg.add .quorum (authority x) c
      reached || quorumLoop c counts authority agg rest
    else quorumLoop c counts authority agg rest

namespace BaseCommitter

variable (self : BaseCommitter) (v : DagView)

def waveNumber (round : Nat) : Nat :=
  (round - self.options.roundOffset) / self.options.waveLength

def leaderRound (wave : Nat) : Nat :=
  wave * self.options.waveLength + self.options.roundOffset

def decisionRound (wave : Nat) : Nat :=
  wave * self.options.waveLength + self.options.waveLength - 1 + self.options.roundOffset

def electLeader (round : Nat) : Option Slot :=
  if self.leaderRound (self.waveNumber round) ≠ round then none
  else some ⟨round, self.leaderSchedule round self.options.leaderOffset⟩

/-- `find_supported_block`, with the depth of the recursion bounded by `fuel`. A
missing block panics in the source; the search moves on to the next ancestor. -/
def findSupportedBlockFuel (leaderSlot : Slot) : Nat → Block → Option BlockRef
  | 0, _ => none
  | fuel + 1, from_ =>
    if from_.round < leaderSlot.round then none
    else from_.ancestors.findSome? fun ancestor =>
      if Slot.ofRef ancestor = leaderSlot then some ancestor
      -- weak links may point below the leader round
      else if ancestor.round ≤ leaderSlot.round then none
      else (v.getBlock ancestor).bind (findSupportedBlockFuel leaderSlot fuel)

/-- Every recursive call goes to an ancestor, one round lower at least, so the
round of the first block bounds the depth. -/
def findSupportedBlock (leaderSlot : Slot) (from_ : Block) : Option BlockRef :=
  findSupportedBlockFuel v leaderSlot (from_.round + 1) from_

def isVote (potentialVote leaderBlock : Block) : Bool :=
  findSupportedBlock v leaderBlock.slot potentialVote == some leaderBlock.reference

/-- Whether an ancestor of a potential certificate is a vote, as `is_certificate`
computes it. A reference missing from the view is not a vote; the source asserts
that it is below the garbage-collection round. -/
def referenceIsVote (leaderBlock : Block) (reference : BlockRef) : Bool :=
  match v.getBlock reference with
  | some potentialVote => isVote v potentialVote leaderBlock
  | none => false

def isCertificate (potentialCertificate leaderBlock : Block) : Bool :=
  quorumLoop self.committee (referenceIsVote v leaderBlock) BlockRef.author .new
    potentialCertificate.ancestors

def enoughLeaderBlame (votingRound leader : Nat) : Bool :=
  quorumLoop self.committee (fun b => b.ancestors.all (fun a => a.author ≠ leader))
    (fun b => b.reference.author) .new (v.getUncommittedBlocksAtRound votingRound)

def enoughLeaderSupport (decisionRound : Nat) (leaderBlock : Block) : Bool :=
  let decisionBlocks := v.getUncommittedBlocksAtRound decisionRound
  -- the quick reject on the stake of all blocks of the decision round
  let totalStake := (decisionBlocks.map fun b => self.committee.stake b.author).sum
  if !self.committee.reachedQuorum totalStake then false
  else quorumLoop self.committee (fun b => self.isCertificate v b leaderBlock)
    (fun b => b.reference.author) .new decisionBlocks

def tryDirectDecide (leader : Slot) : Except CommitPanic LeaderStatus :=
  let votingRound := leader.round + 1
  if self.enoughLeaderBlame v votingRound leader.authority then .ok (.skip leader)
  else
    let wave := self.waveNumber leader.round
    let decisionRound := self.decisionRound wave
    let leaderBlocks := v.getUncommittedBlocksAtSlot leader
    let leadersWithEnoughSupport :=
      (leaderBlocks.filter (self.enoughLeaderSupport v decisionRound)).map LeaderStatus.commit
    if 1 < leadersWithEnoughSupport.length then .error (.moreThanOneCandidate leader)
    else .ok (leadersWithEnoughSupport.getLast?.getD (.undecided leader))

def decideLeaderFromAnchor (anchor : Block) (leaderSlot : Slot) :
    Except CommitPanic LeaderStatus :=
  let leaderBlocks := v.getUncommittedBlocksAtSlot leaderSlot
  let wave := self.waveNumber leaderSlot.round
  let decisionRound := self.decisionRound wave
  let potentialCertificates := v.ancestorsAtRound anchor decisionRound
  let certifiedLeaderBlocks := leaderBlocks.filter fun leaderBlock =>
    potentialCertificates.any fun potentialCertificate =>
      self.isCertificate v potentialCertificate leaderBlock
  if 1 < certifiedLeaderBlocks.length then
    .error (.moreThanOneCertifiedLeader wave leaderSlot)
  else
    match certifiedLeaderBlocks.getLast? with
    | some certifiedLeaderBlock => .ok (.commit certifiedLeaderBlock)
    | none => .ok (.skip leaderSlot)

/-- The loop of `try_indirect_decide` over the anchors: the first committed one
decides, skipped ones are passed over, and an undecided one ends the search. -/
def decideFromAnchors (leaderSlot : Slot) : List LeaderStatus → Except CommitPanic LeaderStatus
  | [] => .ok (.undecided leaderSlot)
  | .commit anchor :: _ => self.decideLeaderFromAnchor v anchor leaderSlot
  | .skip _ :: rest => decideFromAnchors leaderSlot rest
  | .undecided _ :: _ => .ok (.undecided leaderSlot)

def tryIndirectDecide (leaderSlot : Slot) (leaders : List LeaderStatus) :
    Except CommitPanic LeaderStatus :=
  self.decideFromAnchors v leaderSlot
    (leaders.filter fun x => leaderSlot.round + self.options.waveLength ≤ x.round)

end BaseCommitter

end Rtd
