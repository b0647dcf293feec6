import Rtd.Block

/-!
`ThresholdClock` (`consensus/core/src/threshold_clock.rs`): the round a validator
proposes in, advanced once blocks of the current round from a quorum of stake are
accepted, or at once to the round of a later block. The quorum timestamp and the
metrics are left out; rounds are unbounded naturals.

The catch-up branch clears the aggregator before it counts the new block; when that
block alone reaches the quorum it moves one round further and keeps the vote, which
then counts toward the next round as well.

The aggregator adds stakes as natural numbers; on a committee whose stakes add up below
`2 ^ 64` these are the source's `u64` sums, and `addBlocks_round_sound` assumes it.
-/

set_option autoImplicit false

namespace Rtd

structure ThresholdClock where
  aggregator : StakeAggregator
  round : Nat
  deriving DecidableEq

/-- The authors of the blocks of one round. -/
def authorsAtRound (blocks : List BlockRef) (round : Nat) : Finset Nat :=
  ((blocks.filter (·.round = round)).map BlockRef.author).toFinset

@[simp] theorem mem_authorsAtRound {blocks : List BlockRef} {round a : Nat} :
    a ∈ authorsAtRound blocks round ↔ ∃ b ∈ blocks, b.round = round ∧ b.author = a := by
  simp [authorsAtRound, and_assoc]

theorem authorsAtRound_mono {blocks blocks' : List BlockRef} (h : blocks ⊆ blocks')
    (round : Nat) : authorsAtRound blocks round ⊆ authorsAtRound blocks' round := by
  intro a
  simp only [mem_authorsAtRound]
  exact fun ⟨b, hb, hr, ha⟩ => ⟨b, h hb, hr, ha⟩

namespace ThresholdClock

def new (round : Nat) : ThresholdClock := ⟨.new, round⟩

variable (committee : Committee)

/-- `ThresholdClock::add_block`: the clock after the block, and whether the round
advanced. -/
def addBlock (clock : ThresholdClock) (block : BlockRef) : ThresholdClock × Bool :=
  match compare block.round clock.round with
  | .lt => (clock, false)
  | .eq =>
    let (aggregator, reached) := clock.aggregator.add .quorum block.author committee
    if reached then (⟨aggregator.clear, block.round + 1⟩, true)
    else (⟨aggregator, clock.round⟩, false)
  | .gt =>
    let (aggregator, reached) := clock.aggregator.clear.add .quorum block.author committee
    if reached then (⟨aggregator, block.round + 1⟩, true)
    else (⟨aggregator, block.round⟩, true)

/-- A sequence of `add_block` calls. -/
def addBlocks (clock : ThresholdClock) (blocks : List BlockRef) : ThresholdClock :=
  blocks.foldl (fun clock block => (addBlock committee clock block).1) clock

@[simp] theorem addBlocks_nil (clock : ThresholdClock) : addBlocks committee clock [] = clock := rfl

theorem addBlocks_append (clock : ThresholdClock) (blocks blocks' : List BlockRef) :
    addBlocks committee clock (blocks ++ blocks') =
      addBlocks committee (addBlocks committee clock blocks) blocks' := by
  simp [addBlocks, List.foldl_append]

/-- The three branches of `add_block`, by the comparison of the rounds. -/
theorem addBlock_lt {clock : ThresholdClock} {block : BlockRef} (h : block.round < clock.round) :
    (addBlock committee clock block).1 = clock := by
  simp [addBlock, Nat.compare_eq_lt.2 h]

theorem addBlock_eq {clock : ThresholdClock} {block : BlockRef} (h : block.round = clock.round) :
    (addBlock committee clock block).1 =
      let aggregator := clock.aggregator.insertVote block.author committee
      if committee.reachedQuorum aggregator.stake then ⟨aggregator.clear, block.round + 1⟩
      else ⟨aggregator, clock.round⟩ := by
  simp only [addBlock, Nat.compare_eq_eq.2 h, StakeAggregator.add, Threshold.isThreshold]
  by_cases hq : committee.reachedQuorum (clock.aggregator.insertVote block.author committee).stake
  · simp [hq]
  · simp [hq]

theorem addBlock_gt {clock : ThresholdClock} {block : BlockRef} (h : clock.round < block.round) :
    (addBlock committee clock block).1 =
      let aggregator := StakeAggregator.new.insertVote block.author committee
      if committee.reachedQuorum aggregator.stake then ⟨aggregator, block.round + 1⟩
      else ⟨aggregator, block.round⟩ := by
  simp only [addBlock, Nat.compare_eq_gt.2 h, StakeAggregator.add, StakeAggregator.clear,
    Threshold.isThreshold]
  by_cases hq : committee.reachedQuorum (StakeAggregator.new.insertVote block.author committee).stake
  · simp [hq]
  · simp [hq]

theorem round_le_addBlock (clock : ThresholdClock) (block : BlockRef) :
    clock.round ≤ (addBlock committee clock block).1.round := by
  rcases Nat.lt_trichotomy block.round clock.round with h | h | h
  · rw [addBlock_lt committee h]
  · rw [addBlock_eq committee h]
    dsimp only
    split_ifs <;> simp only [] <;> omega
  · rw [addBlock_gt committee h]
    dsimp only
    split_ifs <;> simp only [] <;> omega

theorem round_le_addBlocks (clock : ThresholdClock) (blocks : List BlockRef) :
    clock.round ≤ (addBlocks committee clock blocks).round := by
  induction blocks generalizing clock with
  | nil => rfl
  | cons block blocks ih =>
    exact (round_le_addBlock committee clock block).trans (ih _)

/-! ### What the round rests on -/

variable (r0 : Nat)

/-- Why the clock is at `round`: it started there, a block of that round or later was
added, the authors of the round below hold a quorum, or a block two rounds below came
from an authority that holds a quorum alone, whose vote the catch-up branch kept. -/
def Sound (blocks : List BlockRef) (round : Nat) : Prop :=
  round = r0 ∨ (∃ b ∈ blocks, round ≤ b.round) ∨
    committee.reachedQuorum (committee.stakeOf (authorsAtRound blocks (round - 1))) = true ∨
    ∃ b ∈ blocks, b.round + 2 = round ∧ committee.reachedQuorum (committee.stake b.author) = true

/-- What the clock keeps over the blocks added so far: the round is at least the
initial one and sound, the aggregator counts its votes, and each vote comes from a
block of the current round or is the vote the catch-up branch kept. -/
structure Inv (blocks : List BlockRef) (clock : ThresholdClock) : Prop where
  round_ge : r0 ≤ clock.round
  counts : StakeAggregator.Counts committee clock.aggregator
  votes : ∀ v ∈ clock.aggregator.votes, ∃ b ∈ blocks, b.author = v ∧
    (b.round = clock.round ∨
      (b.round + 1 = clock.round ∧ committee.reachedQuorum (committee.stake v) = true))
  sound : Sound committee r0 blocks clock.round

variable {committee r0}

theorem Sound.mono {blocks blocks' : List BlockRef} {round : Nat} (h : blocks ⊆ blocks')
    (hs : Sound committee r0 blocks round) : Sound committee r0 blocks' round := by
  rcases hs with hs | ⟨b, hb, hr⟩ | hq | ⟨b, hb, hr, hq⟩
  · exact .inl hs
  · exact .inr (.inl ⟨b, h hb, hr⟩)
  · refine .inr (.inr (.inl (committee.reachedQuorum_mono hq ?_)))
    exact committee.stakeOf_mono (authorsAtRound_mono h _)
  · exact .inr (.inr (.inr ⟨b, h hb, hr, hq⟩))

theorem Inv.mono {blocks blocks' : List BlockRef} {clock : ThresholdClock} (h : blocks ⊆ blocks')
    (hinv : Inv committee r0 blocks clock) : Inv committee r0 blocks' clock where
  round_ge := hinv.round_ge
  counts := hinv.counts
  votes v hv := by
    obtain ⟨b, hb, hv⟩ := hinv.votes v hv
    exact ⟨b, h hb, hv⟩
  sound := hinv.sound.mono h

theorem inv_new : Inv committee r0 [] (new r0) :=
  ⟨le_rfl, StakeAggregator.counts_new committee, by simp [new, StakeAggregator.new],
    .inl rfl⟩

/-- A fresh aggregator and a round the new block justifies. -/
theorem inv_of_fresh {blocks : List BlockRef} {clock : ThresholdClock}
    (hround : r0 ≤ clock.round) (hnew : clock.aggregator = StakeAggregator.new ∨
      ∃ block ∈ blocks, clock.aggregator = StakeAggregator.new.insertVote block.author committee ∧
        (block.round = clock.round ∨ (block.round + 1 = clock.round ∧
          committee.reachedQuorum (committee.stake block.author) = true)))
    (hsound : Sound committee r0 blocks clock.round) : Inv committee r0 blocks clock := by
  rcases hnew with hnew | ⟨block, hb, hagg, hr⟩
  · exact ⟨hround, hnew ▸ StakeAggregator.counts_new committee, by simp [hnew, StakeAggregator.new],
      hsound⟩
  · refine ⟨hround, hagg ▸ StakeAggregator.counts_insertVote (StakeAggregator.counts_new _) _,
      fun v hv => ?_, hsound⟩
    rw [hagg, StakeAggregator.insertVote_votes] at hv
    simp only [StakeAggregator.new, Finset.insert_empty, Finset.mem_singleton] at hv
    subst hv
    exact ⟨block, hb, rfl, hr⟩

/-- Equal rounds: the vote joins the aggregator, and a quorum moves the clock on. -/
theorem Inv.addBlock_eq {blocks : List BlockRef} {clock : ThresholdClock} {block : BlockRef}
    (hinv : Inv committee r0 blocks clock) (h : block.round = clock.round) :
    Inv committee r0 (blocks ++ [block]) (addBlock committee clock block).1 := by
  have hsub : blocks ⊆ blocks ++ [block] := List.subset_append_left _ _
  have hmem : block ∈ blocks ++ [block] := by simp
  have hcounts := StakeAggregator.counts_insertVote hinv.counts block.author
  rw [ThresholdClock.addBlock_eq committee h]
  dsimp only
  split_ifs with hq
  · refine inv_of_fresh (by have := hinv.round_ge; dsimp only; omega) (.inl rfl) ?_
    -- a vote kept by the catch-up branch explains the new round; otherwise every vote
    -- is from the current round, and the quorum is one of its authors
    by_cases hkept : ∃ v ∈ (clock.aggregator.insertVote block.author committee).votes,
        ∃ b ∈ blocks, b.author = v ∧ b.round + 1 = clock.round ∧
          committee.reachedQuorum (committee.stake v) = true
    · obtain ⟨v, -, b, hb, rfl, hr, hq'⟩ := hkept
      exact .inr (.inr (.inr ⟨b, hsub hb, by dsimp only; omega, hq'⟩))
    · refine .inr (.inr (.inl (committee.reachedQuorum_mono hq ?_)))
      rw [hcounts]
      refine committee.stakeOf_mono fun v hv => ?_
      rw [show block.round + 1 - 1 = clock.round by omega, mem_authorsAtRound]
      rw [StakeAggregator.insertVote_votes, Finset.mem_insert] at hv
      rcases hv with rfl | hv
      · exact ⟨block, hmem, h, rfl⟩
      · obtain ⟨b, hb, rfl, hr | hr⟩ := hinv.votes _ hv
        · exact ⟨b, hsub hb, hr, rfl⟩
        · exact absurd ⟨b.author, by simp [hv], b, hb, rfl, hr⟩ hkept
  · refine ⟨hinv.round_ge, hcounts, fun v hv => ?_, hinv.sound.mono hsub⟩
    rw [StakeAggregator.insertVote_votes, Finset.mem_insert] at hv
    rcases hv with rfl | hv
    · exact ⟨block, hmem, rfl, .inl h⟩
    · obtain ⟨b, hb, hv⟩ := hinv.votes v hv
      exact ⟨b, hsub hb, hv⟩

/-- A later round: the clock jumps to it, or one past it when the block alone is a
quorum. -/
theorem Inv.addBlock_gt {blocks : List BlockRef} {clock : ThresholdClock} {block : BlockRef}
    (hinv : Inv committee r0 blocks clock) (h : clock.round < block.round) :
    Inv committee r0 (blocks ++ [block]) (addBlock committee clock block).1 := by
  have hmem : block ∈ blocks ++ [block] := by simp
  have hstake : (StakeAggregator.new.insertVote block.author committee).stake =
      committee.stake block.author := by
    simp [StakeAggregator.insertVote, StakeAggregator.new]
  have hround := hinv.round_ge
  rw [ThresholdClock.addBlock_gt committee h]
  dsimp only
  split_ifs with hq
  · rw [hstake] at hq
    refine inv_of_fresh (by dsimp only; omega) (.inr ⟨block, hmem, rfl, .inr ⟨rfl, hq⟩⟩) ?_
    refine .inr (.inr (.inl (committee.reachedQuorum_mono hq ?_)))
    have hone : committee.stake block.author = committee.stakeOf {block.author} := by
      simp [Committee.stakeOf]
    rw [hone]
    refine committee.stakeOf_mono fun v hv => ?_
    rw [Finset.mem_singleton] at hv
    subst hv
    simp only [Nat.add_sub_cancel, mem_authorsAtRound]
    exact ⟨block, hmem, rfl, rfl⟩
  · exact inv_of_fresh (by dsimp only; omega) (.inr ⟨block, hmem, rfl, .inl rfl⟩)
      (.inr (.inl ⟨block, hmem, le_rfl⟩))

theorem Inv.addBlock {blocks : List BlockRef} {clock : ThresholdClock}
    (hinv : Inv committee r0 blocks clock) (block : BlockRef) :
    Inv committee r0 (blocks ++ [block]) (addBlock committee clock block).1 := by
  rcases Nat.lt_trichotomy block.round clock.round with h | h | h
  · rw [addBlock_lt committee h]
    exact hinv.mono (List.subset_append_left _ _)
  · exact hinv.addBlock_eq h
  · exact hinv.addBlock_gt h

theorem Inv.addBlocks {blocks : List BlockRef} {clock : ThresholdClock}
    (hinv : Inv committee r0 blocks clock) (blocks' : List BlockRef) :
    Inv committee r0 (blocks ++ blocks') (addBlocks committee clock blocks') := by
  induction blocks' generalizing blocks clock with
  | nil => simpa using hinv
  | cons block blocks' ih =>
    have := ih (hinv.addBlock block)
    rwa [List.append_assoc, List.singleton_append] at this

variable (committee)

/-- On a committee whose stakes add up below `2 ^ 64`, the round of a threshold clock never
decreases, and past its initial round it rests on the blocks added: one of that round or
later, authors of the round below holding a quorum, or a block two rounds below from an
authority that holds a quorum alone. The aggregator's stake stays below `2 ^ 64`, so the
source's `u64` stake is the model's. -/
theorem addBlocks_round_sound
    (hfit : (committee.authorities.map (fun a => a.stake.toNat)).sum < 2 ^ 64)
    (r0 : Nat) (blocks blocks' : List BlockRef) :
    r0 ≤ (addBlocks committee (new r0) blocks).round ∧
      (addBlocks committee (new r0) blocks).round ≤
        (addBlocks committee (new r0) (blocks ++ blocks')).round ∧
      (r0 < (addBlocks committee (new r0) blocks).round →
        (∃ b ∈ blocks, (addBlocks committee (new r0) blocks).round ≤ b.round) ∨
        committee.reachedQuorum (committee.stakeOf
          (authorsAtRound blocks ((addBlocks committee (new r0) blocks).round - 1))) = true ∨
        ∃ b ∈ blocks, b.round + 2 = (addBlocks committee (new r0) blocks).round ∧
          committee.reachedQuorum (committee.stake b.author) = true) ∧
      (addBlocks committee (new r0) blocks).aggregator.stake < 2 ^ 64 := by
  have hinv := (inv_new : Inv committee r0 [] (new r0)).addBlocks blocks
  rw [List.nil_append] at hinv
  refine ⟨hinv.round_ge, ?_, fun hlt => ?_, StakeAggregator.stake_lt_of_counts hfit hinv.counts⟩
  · rw [addBlocks_append]
    exact round_le_addBlocks committee _ blocks'
  · rcases hinv.sound with heq | hsound
    · omega
    · exact hsound

end ThresholdClock

/-! Four authorities of one unit of stake: the blocks of round 1 from three of them reach
the quorum of three, and a clock at round 0 moves to round 2. -/

namespace FourEqualStakes

def committee : Committee := ⟨0, 4, 3, 2, [⟨1⟩, ⟨1⟩, ⟨1⟩, ⟨1⟩]⟩

def blocks : List BlockRef := [⟨1, 0, 0⟩, ⟨1, 1, 0⟩, ⟨1, 2, 0⟩]

theorem addBlocks_round_sound_quorumOfRound :
    (committee.authorities.map (fun a => a.stake.toNat)).sum < 2 ^ 64 ∧
      (ThresholdClock.addBlocks committee (ThresholdClock.new 0) blocks).round = 2 ∧
      0 ≤ (ThresholdClock.addBlocks committee (ThresholdClock.new 0) blocks).round ∧
      (ThresholdClock.addBlocks committee (ThresholdClock.new 0) blocks).round ≤
        (ThresholdClock.addBlocks committee (ThresholdClock.new 0) (blocks ++ [])).round ∧
      (0 < (ThresholdClock.addBlocks committee (ThresholdClock.new 0) blocks).round →
        (∃ b ∈ blocks, (ThresholdClock.addBlocks committee (ThresholdClock.new 0) blocks).round ≤
          b.round) ∨
        committee.reachedQuorum (committee.stakeOf (authorsAtRound blocks
          ((ThresholdClock.addBlocks committee (ThresholdClock.new 0) blocks).round - 1))) =
            true ∨
        ∃ b ∈ blocks, b.round + 2 =
            (ThresholdClock.addBlocks committee (ThresholdClock.new 0) blocks).round ∧
          committee.reachedQuorum (committee.stake b.author) = true) ∧
      (ThresholdClock.addBlocks committee (ThresholdClock.new 0) blocks).aggregator.stake <
        2 ^ 64 := by
  have hfit : (committee.authorities.map (fun a => a.stake.toNat)).sum < 2 ^ 64 := by decide
  exact ⟨hfit, by decide, ThresholdClock.addBlocks_round_sound committee hfit 0 blocks []⟩

end FourEqualStakes

/-! One authority of a two-authority committee holds a quorum alone. Its block of round 1
moves a clock at round 0 to round 2 and stays in the aggregator; one block of round 2
from the other authority then completes a "quorum" and the clock reaches round 3, though
the authors of round 2 hold one unit of stake against a threshold of eight. -/

namespace OneHeavyAuthority

def authorities : List Authority := [⟨10⟩, ⟨1⟩]

def committee : Committee := ⟨0, 11, 8, 4, authorities⟩

def blocks : List BlockRef := [⟨1, 0, 0⟩, ⟨2, 1, 0⟩]

theorem addBlocks_counts_kept_vote :
    Committee.new 0 authorities = some committee ∧
      (ThresholdClock.addBlocks committee (ThresholdClock.new 0) blocks).round = 3 ∧
      (∀ b ∈ blocks, b.round < 3) ∧
      committee.reachedQuorum (committee.stakeOf (authorsAtRound blocks 2)) = false := by
  decide

end OneHeavyAuthority

end Rtd
