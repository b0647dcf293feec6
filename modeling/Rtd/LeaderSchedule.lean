import Rtd.Committee
import Mathlib

/-!
The leader swap table (`consensus/core/src/leader_schedule.rs`): from the reputation
scores of a commit range, `LeaderSwapTable::new_inner` sorts the authorities by score,
best first, after a shuffle seeded by the commit index; the good nodes are the best
scorers and the bad nodes the worst, each taken while their stake stays within the
threshold percentage of the total. `swap` replaces a bad leader by a good node drawn
with a generator seeded by the round and offset.

The shuffle and the draw are parameters: any permutation, and any index. Hostnames,
metrics and the scores kept for debugging are left out; `bad_nodes`, a map keyed by
authority, is the list of its entries. Stakes summed over authorities are natural
numbers, as in the committee; the threshold product is a `u64` product.
-/

set_option autoImplicit false

namespace Rtd

structure ReputationScores where
  scoresPerAuthority : List Nat
  deriving DecidableEq, Repr

/-- `ReputationScores::authorities_by_score`: each authority's index with its score. -/
def ReputationScores.authoritiesByScore (scores : ReputationScores) : List (Nat × Nat) :=
  scores.scoresPerAuthority.zipIdx.map fun p => (p.2, p.1)

structure LeaderSwapTable where
  goodNodes : List (Nat × Nat)
  badNodes : List (Nat × Nat)
  reputationScoresDesc : List (Nat × Nat)
  deriving DecidableEq, Repr, Inhabited

/-- The panics of the swap table: the assertions and expectations of `new_inner` and
`swap`. -/
inductive SchedulePanic where
  | swapStakeThresholdOutOfRange (swapStakeThreshold : Nat)
  | invalidAuthorityIndex
  | authoritiesByScoreLength
  | multiLeaderSwapNotImplemented
  | noGoodNodeAvailable
  deriving DecidableEq, Repr

namespace LeaderSwapTable

variable (c : Committee) (stakeThreshold : UInt64)

/-- The stake cut-off `stake_threshold * total_stake / 100`, in `u64`. -/
def stakeCutoff : Nat := (stakeThreshold * c.totalStake / 100).toNat

/-- `LeaderSwapTable::retrieve_first_nodes`, with the stake counted so far: the
authorities in the given order while their stake stays within the cut-off. -/
def retrieveFirstNodes : Nat → List (Nat × Nat) → List (Nat × Nat)
  | _, [] => []
  | stake, (authorityIdx, _score) :: authorities =>
    let stake := stake + c.stake authorityIdx
    if stakeCutoff c stakeThreshold < stake then []
    else (authorityIdx, c.stake authorityIdx) :: retrieveFirstNodes stake authorities

/-- `LeaderSwapTable::new_inner`, with `shuffle` the seeded shuffle. -/
def newInner (shuffle : Nat → List (Nat × Nat) → List (Nat × Nat)) (swapStakeThreshold : UInt64)
    (commitIndex : Nat) (reputationScores : ReputationScores) :
    Except SchedulePanic LeaderSwapTable :=
  if 33 < swapStakeThreshold then .error (.swapStakeThresholdOutOfRange swapStakeThreshold.toNat)
  else if reputationScores.scoresPerAuthority.isEmpty then .ok default
  else if c.size < reputationScores.scoresPerAuthority.length then .error .invalidAuthorityIndex
  else if reputationScores.scoresPerAuthority.length ≠ c.size then .error .authoritiesByScoreLength
  else
    -- stable sort by score descending, after the shuffle
    let authoritiesByScore := (shuffle commitIndex reputationScores.authoritiesByScore).mergeSort
      (fun a1 a2 => a2.2 ≤ a1.2)
    .ok ⟨retrieveFirstNodes c swapStakeThreshold 0 authoritiesByScore,
      retrieveFirstNodes c swapStakeThreshold 0 authoritiesByScore.reverse, authoritiesByScore⟩

/-- `LeaderSwapTable::swap`; `draw` is the generator seeded by the round and offset. -/
def swap (table : LeaderSwapTable) (draw : Nat → Nat → Nat) (leader leaderRound leaderOffset : Nat) :
    Except SchedulePanic (Option Nat) :=
  if leader ∈ table.badNodes.map Prod.fst then
    if leaderOffset ≠ 0 then .error .multiLeaderSwapNotImplemented
    else
      match table.goodNodes[draw leaderRound leaderOffset % table.goodNodes.length]? with
      | some (idx, _stake) => .ok (some idx)
      | none => .error .noGoodNodeAvailable
  else .ok none

/-- `LeaderSchedule::elect_leader` after the stake-based election chose `leader`. -/
def electLeader (table : LeaderSwapTable) (draw : Nat → Nat → Nat) (leader round leaderOffset : Nat) :
    Except SchedulePanic Nat :=
  (fun swapped => swapped.getD leader) <$> table.swap draw leader round leaderOffset

/-! ### `retrieve_first_nodes` -/

/-- The node entry of an authority: its index and stake. -/
def entry (p : Nat × Nat) : Nat × Nat := (p.1, c.stake p.1)

theorem retrieveFirstNodes_eq_take : ∀ (stake : Nat) (authorities : List (Nat × Nat)),
    ∃ k, retrieveFirstNodes c stakeThreshold stake authorities =
      (authorities.take k).map (entry c)
  | _, [] => ⟨0, rfl⟩
  | stake, (authorityIdx, score) :: authorities => by
    unfold retrieveFirstNodes
    dsimp only
    split_ifs
    · exact ⟨0, rfl⟩
    · obtain ⟨k, hk⟩ := retrieveFirstNodes_eq_take (stake + c.stake authorityIdx) authorities
      exact ⟨k + 1, by simp [hk, entry]⟩

/-- From a count within the cut-off, the count and the nodes taken stay within it. -/
theorem retrieveFirstNodes_sum_le : ∀ {stake : Nat} (authorities : List (Nat × Nat)),
    stake ≤ stakeCutoff c stakeThreshold →
    stake + ((retrieveFirstNodes c stakeThreshold stake authorities).map Prod.snd).sum ≤
      stakeCutoff c stakeThreshold
  | _, [], h => by simpa [retrieveFirstNodes] using h
  | stake, (authorityIdx, score) :: authorities, h => by
    unfold retrieveFirstNodes
    dsimp only
    split_ifs with hcut
    · simpa using h
    · have : stake + c.stake authorityIdx + ((retrieveFirstNodes c stakeThreshold
          (stake + c.stake authorityIdx) authorities).map Prod.snd).sum ≤ stakeCutoff c stakeThreshold :=
        retrieveFirstNodes_sum_le authorities (by omega)
      simp only [List.map_cons, List.sum_cons]
      omega

theorem retrieveFirstNodes_eq_nil_iff (stake : Nat) (p : Nat × Nat) (authorities : List (Nat × Nat)) :
    retrieveFirstNodes c stakeThreshold stake (p :: authorities) = [] ↔
      stakeCutoff c stakeThreshold < stake + c.stake p.1 := by
  unfold retrieveFirstNodes
  dsimp only
  split_ifs with hcut <;> simp_all

/-- What the `u64` product can lose only lowers the cut-off. -/
theorem stakeCutoff_le : stakeCutoff c stakeThreshold ≤ stakeThreshold.toNat * c.totalStake.toNat / 100 := by
  unfold stakeCutoff
  rw [UInt64.toNat_div, UInt64.toNat_mul]
  exact Nat.div_le_div_right (Nat.mod_le _ _)

/-! ### Good and bad nodes -/

section Disjoint

variable {c stakeThreshold} {sorted : List (Nat × Nat)}

/-- Good nodes are taken from the front and bad nodes from the back of the same list of
distinct authorities; two cut-offs together weigh less than the list, so the two ends
do not meet. -/
theorem good_disjoint_bad (hnodup : (sorted.map Prod.fst).Nodup)
    (htotal : 2 * stakeCutoff c stakeThreshold < (((sorted.map (entry c)).map Prod.snd).sum)) :
    ∀ i ∈ (retrieveFirstNodes c stakeThreshold 0 sorted).map Prod.fst,
      i ∉ (retrieveFirstNodes c stakeThreshold 0 sorted.reverse).map Prod.fst := by
  obtain ⟨k, hk⟩ := retrieveFirstNodes_eq_take c stakeThreshold 0 sorted
  obtain ⟨m, hm⟩ := retrieveFirstNodes_eq_take c stakeThreshold 0 sorted.reverse
  have hgood := retrieveFirstNodes_sum_le c stakeThreshold sorted (Nat.zero_le _)
  have hbad := retrieveFirstNodes_sum_le c stakeThreshold sorted.reverse (Nat.zero_le _)
  rw [hk] at hgood ⊢
  rw [hm] at hbad ⊢
  rw [List.take_reverse] at hbad ⊢
  have hfst : ∀ l : List (Nat × Nat), (l.map (entry c)).map Prod.fst = l.map Prod.fst := by
    simp [entry, Function.comp_def]
  simp only [hfst, List.map_reverse, List.mem_reverse, List.map_take, List.map_drop]
  by_cases hkm : k ≤ sorted.length - m
  · -- the front and the back are apart: distinct authorities
    exact fun i hi hi' => List.disjoint_take_drop hnodup hkm hi hi'
  · -- otherwise the front and the back cover the list, which outweighs them
    exfalso
    have hstakes : ∀ l : List (Nat × Nat), (l.map (entry c)).map Prod.snd =
        l.map fun p => c.stake p.1 := by
      simp [entry, Function.comp_def]
    simp only [hstakes, List.map_reverse, List.sum_reverse, List.map_take, List.map_drop]
      at hgood hbad htotal
    have hsuffix : ((sorted.map fun p => c.stake p.1).drop k).sum ≤
        ((sorted.map fun p => c.stake p.1).drop (sorted.length - m)).sum := by
      have hdrop : (sorted.map fun p => c.stake p.1).drop k =
          ((sorted.map fun p => c.stake p.1).drop (sorted.length - m)).drop
            (k - (sorted.length - m)) := by
        rw [List.drop_drop]
        congr 1
        omega
      rw [hdrop]
      exact (List.drop_sublist _ _).sum_le_sum (fun _ _ => Nat.zero_le _)
    have hsplit := List.sum_take_add_sum_drop (sorted.map fun p => c.stake p.1) k
    omega

end Disjoint

/-! ### `swap` -/

theorem swap_of_not_mem {table : LeaderSwapTable} {leader : Nat}
    (h : leader ∉ table.badNodes.map Prod.fst) (draw : Nat → Nat → Nat) (leaderRound leaderOffset : Nat) :
    table.swap draw leader leaderRound leaderOffset = .ok none := by
  simp [swap, h]

/-- With a good node available, a bad leader of offset zero is swapped for one. -/
theorem swap_of_ne_nil {table : LeaderSwapTable} {leader : Nat}
    (h : leader ∈ table.badNodes.map Prod.fst) (hgood : table.goodNodes ≠ [])
    (draw : Nat → Nat → Nat) (leaderRound : Nat) :
    ∃ g ∈ table.goodNodes.map Prod.fst, table.swap draw leader leaderRound 0 = .ok (some g) := by
  have hlt : draw leaderRound 0 % table.goodNodes.length < table.goodNodes.length :=
    Nat.mod_lt _ (List.length_pos_iff.2 hgood)
  obtain ⟨idx, stake⟩ := table.goodNodes[draw leaderRound 0 % table.goodNodes.length]
  refine ⟨table.goodNodes[draw leaderRound 0 % table.goodNodes.length].1,
    List.mem_map.2 ⟨_, List.getElem_mem hlt, rfl⟩, ?_⟩
  simp only [swap, h, if_true, ne_eq, not_true_eq_false, if_false, List.getElem?_eq_getElem hlt]

/-! ### `new_inner` -/

/-- With distinct scores the stable sort does not depend on the order it is given. -/
theorem mergeSort_eq_of_perm {l l' : List (Nat × Nat)} (hperm : l.Perm l')
    (hdistinct : ∀ a ∈ l', ∀ b ∈ l', a.2 = b.2 → a = b)
    (hsorted : l'.Pairwise (fun a b => b.2 ≤ a.2)) :
    l.mergeSort (fun a1 a2 => a2.2 ≤ a1.2) = l' := by
  have hpair : (l.mergeSort (fun a1 a2 => a2.2 ≤ a1.2)).Pairwise
      (fun a b => decide (b.2 ≤ a.2) = true) :=
    List.pairwise_mergeSort (fun a b c hab hbc => by simp only [decide_eq_true_eq] at *; omega)
      (fun a b => by simpa using Nat.le_total b.2 a.2) l
  have hperm' := (List.mergeSort_perm l (fun a1 a2 => decide (a2.2 ≤ a1.2))).trans hperm
  refine List.Perm.eq_of_pairwise (fun a b ha hb hab hba => ?_) (hpair.imp (by simp)) hsorted hperm'
  exact hdistinct a (hperm'.subset ha) b hb (by omega)

theorem map_fst_authoritiesByScore (scores : ReputationScores) :
    scores.authoritiesByScore.map Prod.fst = List.range scores.scoresPerAuthority.length := by
  simp [ReputationScores.authoritiesByScore, Function.comp_def, List.range_eq_range']

theorem newInner_eq (shuffle : Nat → List (Nat × Nat) → List (Nat × Nat))
    {swapStakeThreshold : UInt64} (hthreshold : swapStakeThreshold.toNat ≤ 33) (commitIndex : Nat)
    {scores : ReputationScores} (hne : scores.scoresPerAuthority ≠ [])
    (hscores : scores.scoresPerAuthority.length = c.size) :
    newInner c shuffle swapStakeThreshold commitIndex scores =
      .ok ⟨retrieveFirstNodes c swapStakeThreshold 0
          ((shuffle commitIndex scores.authoritiesByScore).mergeSort (fun a1 a2 => a2.2 ≤ a1.2)),
        retrieveFirstNodes c swapStakeThreshold 0
          ((shuffle commitIndex scores.authoritiesByScore).mergeSort (fun a1 a2 => a2.2 ≤ a1.2)).reverse,
        (shuffle commitIndex scores.authoritiesByScore).mergeSort (fun a1 a2 => a2.2 ≤ a1.2)⟩ := by
  have hlt : ¬ 33 < swapStakeThreshold := by
    rw [UInt64.lt_iff_toNat_lt]
    simpa using hthreshold
  simp [newInner, hlt, hne, hscores]

section Committee

variable {c} {epoch : Nat} {authorities : List Authority}

theorem sum_stake_of_perm {l : List (Nat × Nat)} (hperm : (l.map Prod.fst).Perm (List.range c.size)) :
    (l.map fun p => c.stake p.1).sum = ∑ i ∈ Finset.range c.size, c.stake i := by
  have hmap : (l.map fun p => c.stake p.1) = (l.map Prod.fst).map c.stake := by
    simp [Function.comp_def]
  rw [hmap, (hperm.map c.stake).sum_eq, ← List.sum_toFinset c.stake List.nodup_range,
    List.toFinset_range]

/-- The stored total, a `u64` sum, is at most the committee's stakes. -/
theorem totalStake_le_sum (hc : Committee.new epoch authorities = some c) :
    c.totalStake.toNat ≤ ∑ i ∈ Finset.range c.size, c.stake i := by
  obtain ⟨hauth, htotal, -⟩ := new_spec hc
  rw [sum_stake_range, hauth, htotal, toNat_sum_map]
  exact Nat.mod_le _ _

/-- The swap table is well formed and its swaps are sound: for every committee built by
`Committee::new`, scores of every authority, every shuffle and every threshold in
`[0, 33]`, `new_inner` builds a table whose good and bad nodes are disjoint, each within
`threshold * total_stake / 100` of stake; the good nodes are empty exactly when the best
scorer alone passes the cut-off; and `swap` leaves a good leader alone and, with a good
node available, replaces a bad leader of offset zero by a good node. On a committee whose
stakes add up below `2 ^ 64`, the stake that either loop of `retrieve_first_nodes` counts, a
sum over a prefix of the sorted scores or of their reverse, stays below `2 ^ 64`, so the
source's `u64` count is the model's. -/
theorem newInner_swap_sound (hc : Committee.new epoch authorities = some c)
    (hfit : (authorities.map (fun a => a.stake.toNat)).sum < 2 ^ 64)
    (shuffle : Nat → List (Nat × Nat) → List (Nat × Nat)) (hshuffle : ∀ seed l, (shuffle seed l).Perm l)
    {swapStakeThreshold : UInt64} (hthreshold : swapStakeThreshold.toNat ≤ 33) (commitIndex : Nat)
    {scores : ReputationScores} (hscores : scores.scoresPerAuthority.length = c.size) :
    ∃ table, newInner c shuffle swapStakeThreshold commitIndex scores = .ok table ∧
      (∀ i ∈ table.goodNodes.map Prod.fst, i ∉ table.badNodes.map Prod.fst) ∧
      (table.goodNodes.map Prod.snd).sum ≤ swapStakeThreshold.toNat * c.totalStake.toNat / 100 ∧
      (table.badNodes.map Prod.snd).sum ≤ swapStakeThreshold.toNat * c.totalStake.toNat / 100 ∧
      (table.goodNodes = [] ↔ ∀ top ∈ table.reputationScoresDesc.head?,
        stakeCutoff c swapStakeThreshold < c.stake top.1) ∧
      (∀ n, ((table.reputationScoresDesc.take n).map fun p => c.stake p.1).sum < 2 ^ 64 ∧
        ((table.reputationScoresDesc.reverse.take n).map fun p => c.stake p.1).sum < 2 ^ 64) ∧
      ∀ (draw : Nat → Nat → Nat) (leader leaderRound : Nat),
        (leader ∉ table.badNodes.map Prod.fst → table.swap draw leader leaderRound 0 = .ok none) ∧
        (table.goodNodes ≠ [] → leader ∈ table.badNodes.map Prod.fst →
          ∃ g ∈ table.goodNodes.map Prod.fst, g ∉ table.badNodes.map Prod.fst ∧
            table.swap draw leader leaderRound 0 = .ok (some g)) := by
  obtain ⟨hauth, -, -, -, hpos⟩ := new_spec hc
  have hsize : 0 < c.size := by
    unfold Committee.size
    rw [hauth]
    exact List.length_pos_iff.2 (by rintro rfl; simp [Committee.new] at hc)
  have hne : scores.scoresPerAuthority ≠ [] := by
    rintro h
    simp [h] at hscores
    omega
  obtain ⟨sorted, hsorted⟩ : ∃ sorted, (shuffle commitIndex scores.authoritiesByScore).mergeSort
      (fun a1 a2 => a2.2 ≤ a1.2) = sorted := ⟨_, rfl⟩
  have hnew := newInner_eq c shuffle hthreshold commitIndex hne hscores
  rw [hsorted] at hnew
  -- the sorted list holds each authority once
  have hperm : (sorted.map Prod.fst).Perm (List.range c.size) := by
    rw [← hscores, ← map_fst_authoritiesByScore, ← hsorted]
    exact (((List.mergeSort_perm _ _).trans (hshuffle _ _)).map Prod.fst)
  have hcut := stakeCutoff_le c swapStakeThreshold
  have hsum : (sorted.map fun p => c.stake p.1).sum = ∑ i ∈ Finset.range c.size, c.stake i :=
    sum_stake_of_perm hperm
  have hT := totalStake_le_sum hc
  have hgood := retrieveFirstNodes_sum_le c swapStakeThreshold sorted (Nat.zero_le _)
  have hbad := retrieveFirstNodes_sum_le c swapStakeThreshold sorted.reverse (Nat.zero_le _)
  have hdisjoint : ∀ i ∈ (retrieveFirstNodes c swapStakeThreshold 0 sorted).map Prod.fst,
      i ∉ (retrieveFirstNodes c swapStakeThreshold 0 sorted.reverse).map Prod.fst := by
    refine good_disjoint_bad (hperm.nodup_iff.2 List.nodup_range) ?_
    have hentry : (sorted.map (entry c)).map Prod.snd = sorted.map fun p => c.stake p.1 := by
      simp [entry, Function.comp_def]
    rw [hentry, hsum]
    have : swapStakeThreshold.toNat * c.totalStake.toNat / 100 ≤ 33 * c.totalStake.toNat / 100 :=
      Nat.div_le_div_right (Nat.mul_le_mul_right _ hthreshold)
    omega
  -- every authority once, so a prefix of either order weighs at most all the stakes
  have hall : (sorted.map fun p => c.stake p.1).sum < 2 ^ 64 := by
    rw [hsum, sum_stake_range, hauth]
    exact hfit
  have hprefix : ∀ n, ((sorted.take n).map fun p => c.stake p.1).sum < 2 ^ 64 ∧
      ((sorted.reverse.take n).map fun p => c.stake p.1).sum < 2 ^ 64 := by
    intro n
    have hle := ((List.take_sublist n sorted).map (fun p => c.stake p.1)).sum_le_sum
      fun _ _ => Nat.zero_le _
    have hle' := ((List.take_sublist n sorted.reverse).map (fun p => c.stake p.1)).sum_le_sum
      fun _ _ => Nat.zero_le _
    rw [List.map_reverse, List.sum_reverse] at hle'
    exact ⟨lt_of_le_of_lt hle hall, lt_of_le_of_lt hle' hall⟩
  refine ⟨_, hnew, hdisjoint, by simp at hgood ⊢; omega,
    by simp at hbad ⊢; omega, ?_, hprefix, fun draw leader leaderRound =>
      ⟨fun h => swap_of_not_mem h _ _ _, fun hgood' hbad' => ?_⟩⟩
  · -- the good nodes are empty exactly when the first authority passes the cut-off
    obtain ⟨top, rest, htop⟩ : ∃ top rest, sorted = top :: rest := by
      cases h : sorted with
      | nil =>
        have := hperm.length_eq
        simp [h] at this
        omega
      | cons top rest => exact ⟨top, rest, rfl⟩
    dsimp only
    rw [htop, retrieveFirstNodes_eq_nil_iff]
    simp
  · obtain ⟨g, hg, hswap⟩ := swap_of_ne_nil hbad' hgood' draw leaderRound
    exact ⟨g, hg, hdisjoint g hg, hswap⟩

end Committee

end LeaderSwapTable

/-! With four authorities of one unit of stake and the threshold at its largest, the best
scorer is the only good node and the worst the only bad one. -/

namespace EvenStakes

def authorities : List Authority := [⟨1⟩, ⟨1⟩, ⟨1⟩, ⟨1⟩]

def committee : Committee := ⟨0, 4, 3, 2, authorities⟩

def scores : ReputationScores := ⟨[4, 3, 2, 1]⟩

theorem newInner_swap_sound_evenStakes :
    Committee.new 0 authorities = some committee ∧
      (authorities.map (fun a => a.stake.toNat)).sum < 2 ^ 64 ∧
      (∀ (_seed : Nat) (l : List (Nat × Nat)), l.Perm l) ∧
      (33 : UInt64).toNat ≤ 33 ∧ scores.scoresPerAuthority.length = committee.size ∧
      ∃ table, LeaderSwapTable.newInner committee (fun _ l => l) 33 0 scores = .ok table ∧
        (∀ i ∈ table.goodNodes.map Prod.fst, i ∉ table.badNodes.map Prod.fst) ∧
        (table.goodNodes.map Prod.snd).sum ≤ (33 : UInt64).toNat * committee.totalStake.toNat / 100 ∧
        (table.badNodes.map Prod.snd).sum ≤ (33 : UInt64).toNat * committee.totalStake.toNat / 100 ∧
        (table.goodNodes = [] ↔ ∀ top ∈ table.reputationScoresDesc.head?,
          LeaderSwapTable.stakeCutoff committee 33 < committee.stake top.1) ∧
        (∀ n, ((table.reputationScoresDesc.take n).map fun p => committee.stake p.1).sum <
            2 ^ 64 ∧
          ((table.reputationScoresDesc.reverse.take n).map fun p => committee.stake p.1).sum <
            2 ^ 64) ∧
        ∀ (draw : Nat → Nat → Nat) (leader leaderRound : Nat),
          (leader ∉ table.badNodes.map Prod.fst → table.swap draw leader leaderRound 0 = .ok none) ∧
          (table.goodNodes ≠ [] → leader ∈ table.badNodes.map Prod.fst →
            ∃ g ∈ table.goodNodes.map Prod.fst, g ∉ table.badNodes.map Prod.fst ∧
              table.swap draw leader leaderRound 0 = .ok (some g)) := by
  have hc : Committee.new 0 authorities = some committee := by decide
  have hfit : (authorities.map (fun a => a.stake.toNat)).sum < 2 ^ 64 := by decide
  exact ⟨hc, hfit, fun _ _ => List.Perm.refl _, by decide, by decide,
    LeaderSwapTable.newInner_swap_sound hc hfit (fun _ l => l) (fun _ _ => List.Perm.refl _)
      (by decide) 0 (by decide)⟩

end EvenStakes

/-! One authority of two holds nearly all the stake and scores best. Under the largest
threshold it alone passes the cut-off of 33, so there are no good nodes, while the other
authority is a bad node; whatever the shuffle, `swap` on it finds no good node. -/

namespace HeavyBestScorer

def authorities : List Authority := [⟨100⟩, ⟨1⟩]

def committee : Committee := ⟨0, 101, 68, 34, authorities⟩

def scores : ReputationScores := ⟨[1, 0]⟩

def table : LeaderSwapTable := ⟨[], [(1, 1)], [(0, 1), (1, 0)]⟩

theorem swap_finds_no_good_node :
    Committee.new 0 authorities = some committee ∧
      (∀ shuffle : Nat → List (Nat × Nat) → List (Nat × Nat),
        (∀ (seed : Nat) (l : List (Nat × Nat)), (shuffle seed l).Perm l) → ∀ commitIndex,
          LeaderSwapTable.newInner committee shuffle 33 commitIndex scores = .ok table) ∧
      ∀ (draw : Nat → Nat → Nat) (leaderRound : Nat),
        table.swap draw 1 leaderRound 0 = .error .noGoodNodeAvailable := by
  refine ⟨by decide, fun shuffle hshuffle commitIndex => ?_, fun draw leaderRound => ?_⟩
  · rw [LeaderSwapTable.newInner_eq committee shuffle (by decide) commitIndex (by decide) (by decide)]
    -- the scores are distinct, so every shuffle sorts to the same order
    have hsorted : (shuffle commitIndex scores.authoritiesByScore).mergeSort
        (fun a1 a2 => a2.2 ≤ a1.2) = [(0, 1), (1, 0)] :=
      LeaderSwapTable.mergeSort_eq_of_perm ((hshuffle _ _).trans (.of_eq (by decide)))
        (by decide) (by decide)
    rw [hsorted]
    decide
  · simp [LeaderSwapTable.swap, table]

end HeavyBestScorer

end Rtd
