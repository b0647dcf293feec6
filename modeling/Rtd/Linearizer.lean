import Rtd.WeightedMedian
import Rtd.DagView
import Mathlib

/-!
Commit timestamps (`consensus/core/src/linearizer.rs`): `median_timestamp_by_stake`
sorts the timestamps of the leader's parents by value, stably, and returns the first at
which the stake counted so far passes half of the parents' total stake;
`calculate_commit_timestamp` takes that median and never goes below the last commit's
timestamp.

Stake sums are natural numbers, as in the committee. The blocks come from distinct
authorities, so their stakes sum to at most the sum of the committee's stakes; where that is
below `2 ^ 64` they are the source's `u64` sums, and the theorem on the median assumes it.
-/

set_option autoImplicit false

namespace Rtd

open WeightedMedian

/-- The errors of `median_timestamp_by_stake`: "No blocks provided" and
"Total stake {total_stake} < quorum threshold {quorum_threshold}". -/
inductive MedianError where
  | noBlocksProvided
  | totalStakeBelowQuorum (totalStake quorumThreshold : Nat)
  deriving DecidableEq, Repr

/-- The loop of `median_timestamps_by_stake_inner` over the sorted timestamps. -/
def scanCumulativeStake (totalStake : Nat) : Nat → List (Nat × Nat) → Option Nat
  | _, [] => none
  | cumulativeStake, (ts, stake) :: timestamps =>
    if totalStake / 2 < cumulativeStake + stake then some ts
    else scanCumulativeStake totalStake (cumulativeStake + stake) timestamps

/-- `median_timestamps_by_stake_inner`. When the loop runs out the source returns the
last timestamp, unwrapping `last()`, which panics on no timestamps; the caller never
passes none, and the model returns 0 there. -/
def medianTimestampsByStakeInner (timestamps : List (Nat × Nat)) (totalStake : Nat) : Nat :=
  let timestamps := timestamps.mergeSort (fun a b => a.1 ≤ b.1)
  match scanCumulativeStake totalStake 0 timestamps with
  | some ts => ts
  | none => (timestamps.getLast?.map Prod.fst).getD 0

/-- `median_timestamp_by_stake`: the blocks' timestamps with their authors' stakes. -/
def medianTimestampByStake (c : Committee) (blocks : List Block) : Except MedianError Nat :=
  let timestamps := blocks.map fun b => (b.timestampMs, c.stake b.author)
  let totalStake := (timestamps.map Prod.snd).sum
  if timestamps.isEmpty then .error .noBlocksProvided
  else if totalStake < c.quorumThreshold.toNat then
    .error (.totalStakeBelowQuorum totalStake c.quorumThreshold.toNat)
  else .ok (medianTimestampsByStakeInner timestamps totalStake)

/-- `Linearizer::calculate_commit_timestamp`: the median over the leader's parents, the
ancestors one round below it, and at least the last commit's timestamp. A parent
missing from the DAG state and an error of the median both panic: `none`. -/
def calculateCommitTimestamp (c : Committee) (dagState : DagView) (leaderBlock : Block)
    (lastCommitTimestampMs : Nat) : Option Nat := do
  let blockRefs := leaderBlock.ancestors.filter (fun r => r.round = leaderBlock.round - 1)
  let blocks ← blockRefs.mapM dagState.getBlock
  match medianTimestampByStake c blocks with
  | .ok timestampMs => some (max timestampMs lastCommitTimestampMs)
  | .error _ => none

/-! ### The scan finds a weighted median -/

section Scan

variable {totalStake : Nat}

/-- From a sorted list and a count that has not passed half yet, a timestamp the scan
returns is a weighted median of the rest, offset by what is counted already. -/
theorem scanCumulativeStake_spec : ∀ {timestamps : List (Nat × Nat)} {cumulative t : Nat},
    timestamps.Pairwise (fun a b => a.1 ≤ b.1) → cumulative ≤ totalStake / 2 →
    scanCumulativeStake totalStake cumulative timestamps = some t →
    t ∈ timestamps.map Prod.fst ∧
      cumulative + weightBelow Prod.fst Prod.snd t timestamps ≤ totalStake / 2 ∧
      totalStake / 2 < cumulative + weightUpTo Prod.fst Prod.snd t timestamps
  | [], _, _, _, _, h => by simp [scanCumulativeStake] at h
  | (ts, stake) :: timestamps, cumulative, t, hsorted, hcum, h => by
    rw [List.pairwise_cons] at hsorted
    obtain ⟨hhead, hrest⟩ := hsorted
    unfold weightBelow weightUpTo
    rw [weightWhere_cons, weightWhere_cons]
    unfold scanCumulativeStake at h
    split_ifs at h with hpass
    · -- the count passes half here: nothing later is below `ts`
      cases h
      have hbelow : weightWhere Prod.snd (fun b => b.1 < ts) timestamps = 0 :=
        weightWhere_eq_zero fun b hb hlt => absurd (hhead b hb) (by omega)
      simp only [lt_irrefl, if_false, le_refl, if_true, hbelow]
      exact ⟨.head _, by omega, by omega⟩
    · -- the count goes on: the median is at or above `ts`
      obtain ⟨hmem, hle, hlt⟩ := scanCumulativeStake_spec hrest (by omega) h
      obtain ⟨e, he, rfl⟩ := List.mem_map.1 hmem
      have hts : ts ≤ e.1 := hhead e he
      have hstep : (if ts < e.1 then stake else 0) ≤ stake := by split_ifs <;> omega
      unfold weightBelow at hle
      unfold weightUpTo at hlt
      simp only [hts, if_true]
      exact ⟨.tail _ hmem, by omega, by omega⟩

/-- Once the stake left to count takes the total past half, the scan returns. -/
theorem scanCumulativeStake_isSome : ∀ {timestamps : List (Nat × Nat)} {cumulative : Nat},
    cumulative ≤ totalStake / 2 → totalStake / 2 < cumulative + totalWeight Prod.snd timestamps →
    (scanCumulativeStake totalStake cumulative timestamps).isSome
  | [], _, hcum, h => by simp at h; omega
  | (ts, stake) :: timestamps, cumulative, _, h => by
    unfold scanCumulativeStake
    split_ifs with hpass
    · rfl
    · exact scanCumulativeStake_isSome (by omega) (by simp at h; omega)

end Scan

theorem pairwise_mergeSort_fst (timestamps : List (Nat × Nat)) :
    (timestamps.mergeSort (fun a b => a.1 ≤ b.1)).Pairwise (fun a b => a.1 ≤ b.1) := by
  have h : (timestamps.mergeSort (fun a b => a.1 ≤ b.1)).Pairwise
      (fun a b => decide (a.1 ≤ b.1) = true) :=
    List.pairwise_mergeSort (fun a b c hab hbc => by simp only [decide_eq_true_eq] at *; omega)
      (fun a b => by simpa using Nat.le_total a.1 b.1) timestamps
  exact h.imp (by simp)

/-- With a positive total, `median_timestamps_by_stake_inner` returns a weighted median. -/
theorem medianTimestampsByStakeInner_isMedian {timestamps : List (Nat × Nat)}
    (hpos : 0 < totalWeight Prod.snd timestamps) :
    IsMedian Prod.fst Prod.snd timestamps
      (medianTimestampsByStakeInner timestamps (totalWeight Prod.snd timestamps)) := by
  have hperm : (timestamps.mergeSort (fun a b => a.1 ≤ b.1)).Perm timestamps :=
    List.mergeSort_perm _ _
  have htotal : totalWeight Prod.snd (timestamps.mergeSort (fun a b => a.1 ≤ b.1)) =
      totalWeight Prod.snd timestamps := totalWeight_perm hperm
  have hsome : (scanCumulativeStake (totalWeight Prod.snd timestamps) 0
      (timestamps.mergeSort (fun a b => a.1 ≤ b.1))).isSome :=
    scanCumulativeStake_isSome (Nat.zero_le _) (by omega)
  obtain ⟨t, ht⟩ := Option.isSome_iff_exists.1 hsome
  obtain ⟨hmem, hle, hlt⟩ := scanCumulativeStake_spec (pairwise_mergeSort_fst timestamps)
    (Nat.zero_le _) ht
  have hinner : medianTimestampsByStakeInner timestamps (totalWeight Prod.snd timestamps) = t := by
    unfold medianTimestampsByStakeInner
    dsimp only
    rw [ht]
  rw [hinner]
  refine IsMedian.perm ⟨hmem, ?_, ?_⟩ hperm <;> omega

/-! ### `median_timestamp_by_stake` -/

section Median

variable {c : Committee} {blocks : List Block}

/-- The stake of a list of blocks from distinct authorities of the committee, counted
over those outside `honest`, is at most the stake of the authorities outside it. -/
theorem weightWhere_not_mem_le (hdistinct : (blocks.map Block.author).Nodup)
    (hvalid : ∀ b ∈ blocks, b.author < c.size) (honest : Finset Nat) :
    weightWhere (fun b => c.stake b.author) (fun b => b.author ∉ honest) blocks ≤
      c.stakeOf (Finset.range c.size \ honest) := by
  have hmap : weightWhere c.stake (fun i => i ∉ honest) (blocks.map Block.author) =
      weightWhere (fun b => c.stake b.author) (fun b => b.author ∉ honest) blocks :=
    weightWhere_map Block.author blocks
  have hsum := List.sum_toFinset c.stake (hdistinct.filter (fun i => decide (i ∉ honest)))
  have hsub : ((blocks.map Block.author).filter (fun i => decide (i ∉ honest))).toFinset ⊆
      Finset.range c.size \ honest := by
    intro i hi
    simp only [List.mem_toFinset, List.mem_filter, List.mem_map, decide_eq_true_eq] at hi
    obtain ⟨⟨b, hb, rfl⟩, hni⟩ := hi
    exact Finset.mem_sdiff.2 ⟨Finset.mem_range.2 (hvalid b hb), hni⟩
  calc weightWhere (fun b => c.stake b.author) (fun b => b.author ∉ honest) blocks
      = weightWhere c.stake (fun i => i ∉ honest) (blocks.map Block.author) := hmap.symm
    _ = ∑ i ∈ ((blocks.map Block.author).filter (fun i => decide (i ∉ honest))).toFinset,
          c.stake i := hsum.symm
    _ ≤ c.stakeOf (Finset.range c.size \ honest) := Finset.sum_le_sum_of_subset hsub

theorem medianTimestampByStake_eq (hne : blocks ≠ [])
    (hquorum : c.quorumThreshold.toNat ≤ totalWeight (fun b => c.stake b.author) blocks) :
    medianTimestampByStake c blocks = .ok (medianTimestampsByStakeInner
      (blocks.map fun b => (b.timestampMs, c.stake b.author))
      (totalWeight (fun b => c.stake b.author) blocks)) := by
  have htotal : ((blocks.map fun b => (b.timestampMs, c.stake b.author)).map Prod.snd).sum =
      totalWeight (fun b => c.stake b.author) blocks := by
    simp [totalWeight, Function.comp_def]
  unfold medianTimestampByStake
  simp only [List.isEmpty_map, List.isEmpty_eq_false_iff.2 hne, htotal, if_neg (not_lt.2 hquorum)]
  rfl

/-- Commit timestamps are weighted medians that faulty stake cannot move: on a
committee built by `Committee::new`, for blocks of distinct authorities whose stake
reaches the quorum threshold, `median_timestamp_by_stake` returns a weighted median of
their timestamps by stake, and it lies between two timestamps of any set of authorities
outside which at most `f = (T - 1) / 3` of the stake lies. On a committee whose stakes add
up below `2 ^ 64`, the blocks' total stake, which the source counts in `u64` and every
cumulative stake of its scan is at most, stays below `2 ^ 64`. -/
theorem medianTimestampByStake_byzantine_resilient {epoch : Nat} {authorities : List Authority}
    (hc : Committee.new epoch authorities = some c)
    (hfit : (authorities.map (fun a => a.stake.toNat)).sum < 2 ^ 64) (hne : blocks ≠ [])
    (hdistinct : (blocks.map Block.author).Nodup) (hvalid : ∀ b ∈ blocks, b.author < c.size)
    (hquorum : c.quorumThreshold.toNat ≤ totalWeight (fun b => c.stake b.author) blocks) :
    totalWeight (fun b => c.stake b.author) blocks < 2 ^ 64 ∧
    ∃ t, medianTimestampByStake c blocks = .ok t ∧
      IsMedian Block.timestampMs (fun b => c.stake b.author) blocks t ∧
      ∀ honest : Finset Nat,
        c.stakeOf (Finset.range c.size \ honest) ≤ (c.totalStake.toNat - 1) / 3 →
        (∃ b ∈ blocks, b.author ∈ honest ∧ b.timestampMs ≤ t) ∧
          ∃ b ∈ blocks, b.author ∈ honest ∧ t ≤ b.timestampMs := by
  obtain ⟨hauth, -, hq, -, hT⟩ := new_spec hc
  have hQ : c.quorumThreshold.toNat = c.totalStake.toNat - (c.totalStake.toNat - 1) / 3 := by
    rw [hq, quorumThresholdFor_toNat hT]
  -- distinct authors weigh at most all the stakes
  have hfits : totalWeight (fun b => c.stake b.author) blocks < 2 ^ 64 := by
    have hset : totalWeight (fun b => c.stake b.author) blocks =
        c.stakeOf (blocks.map Block.author).toFinset := by
      rw [Committee.stakeOf, List.sum_toFinset _ hdistinct]
      simp [totalWeight, Function.comp_def]
    rw [hset]
    exact lt_of_le_of_lt (stakeOf_le_sum c _) (by rw [hauth]; exact hfit)
  -- the pairs the source sorts weigh what the blocks weigh
  have hpairs : totalWeight Prod.snd (blocks.map fun b => (b.timestampMs, c.stake b.author)) =
      totalWeight (fun b => c.stake b.author) blocks := by
    rw [totalWeight_map]
    rfl
  have hpairs_median : IsMedian Prod.fst Prod.snd
      (blocks.map fun b => (b.timestampMs, c.stake b.author))
      (medianTimestampsByStakeInner (blocks.map fun b => (b.timestampMs, c.stake b.author))
        (totalWeight Prod.snd (blocks.map fun b => (b.timestampMs, c.stake b.author)))) :=
    medianTimestampsByStakeInner_isMedian (by omega)
  rw [hpairs, isMedian_map_iff] at hpairs_median
  have hmedian : IsMedian Block.timestampMs (fun b => c.stake b.author) blocks
      (medianTimestampsByStakeInner (blocks.map fun b => (b.timestampMs, c.stake b.author))
        (totalWeight (fun b => c.stake b.author) blocks)) := hpairs_median
  refine ⟨hfits, _, medianTimestampByStake_eq hne hquorum, hmedian, fun honest hhonest => ?_⟩
  have hfaulty := weightWhere_not_mem_le hdistinct hvalid honest
  exact hmedian.between (q := fun b => b.author ∈ honest) (f := (c.totalStake.toNat - 1) / 3)
    (by omega) (by omega)

end Median

theorem calculateCommitTimestamp_ge {c : Committee} {dagState : DagView} {leaderBlock : Block}
    {lastCommitTimestampMs t : Nat}
    (h : calculateCommitTimestamp c dagState leaderBlock lastCommitTimestampMs = some t) :
    lastCommitTimestampMs ≤ t := by
  unfold calculateCommitTimestamp at h
  cases hblocks : (leaderBlock.ancestors.filter
      (fun r => r.round = leaderBlock.round - 1)).mapM dagState.getBlock with
  | none => simp [hblocks] at h
  | some blocks =>
    simp only [hblocks, Option.bind_eq_bind, Option.bind_some] at h
    split at h
    · cases h
      exact le_max_right _ _
    · cases h

/-! Three parents of a leader in a committee of four authorities of stake one. -/

namespace FourAuthorities

def authorities : List Authority := [⟨1⟩, ⟨1⟩, ⟨1⟩, ⟨1⟩]

def committee : Committee := ⟨0, 4, 3, 2, authorities⟩

def parent (author timestampMs : Nat) : Block := ⟨0, 1, author, 0, timestampMs, []⟩

def parents : List Block := [parent 0 10, parent 1 30, parent 2 20]

theorem medianTimestampByStake_byzantine_resilient_fourAuthorities :
    Committee.new 0 authorities = some committee ∧
      (authorities.map (fun a => a.stake.toNat)).sum < 2 ^ 64 ∧ parents ≠ [] ∧
      (parents.map Block.author).Nodup ∧ (∀ b ∈ parents, b.author < committee.size) ∧
      committee.quorumThreshold.toNat ≤ totalWeight (fun b => committee.stake b.author) parents ∧
      totalWeight (fun b => committee.stake b.author) parents < 2 ^ 64 ∧
      ∃ t, medianTimestampByStake committee parents = .ok t ∧
        IsMedian Block.timestampMs (fun b => committee.stake b.author) parents t ∧
        ∀ honest : Finset Nat,
          committee.stakeOf (Finset.range committee.size \ honest) ≤
            (committee.totalStake.toNat - 1) / 3 →
          (∃ b ∈ parents, b.author ∈ honest ∧ b.timestampMs ≤ t) ∧
            ∃ b ∈ parents, b.author ∈ honest ∧ t ≤ b.timestampMs := by
  have hc : Committee.new 0 authorities = some committee := by decide
  have hfit : (authorities.map (fun a => a.stake.toNat)).sum < 2 ^ 64 := by decide
  exact ⟨hc, hfit, by decide, by decide, by decide, by decide,
    medianTimestampByStake_byzantine_resilient hc hfit (by decide) (by decide) (by decide)
      (by decide)⟩

end FourAuthorities

end Rtd
