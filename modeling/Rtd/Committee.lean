import Rtd.Weight
import Mathlib

/-!
The consensus committee (`consensus/config/src/committee.rs`) and the stake
aggregator over it (`consensus/core/src/stake_aggregator.rs`).

Stakes are `u64`, and the model follows a release build, where `u64` arithmetic wraps.
`Committee::new` sums the stakes and computes its thresholds and its assertion in `u64`;
the model does the same with `UInt64`. The sum can wrap: stakes `u64::MAX` and `2` give a
committee of total stake `1`, which the assertion accepts and on which two quorums are
disjoint (`committee_new_wrapped_disjoint_quorums`).

Amounts of stake summed over sets of authorities, as `StakeAggregator` and the other stake
counters of the source keep them in `u64`, are natural numbers here. They are the source's
numbers on a committee whose stakes add up below `2 ^ 64`: every such amount is at most
that sum (`stakeOf_le_sum`), so no `+=` of the source wraps. The theorems over these amounts
assume it, as `hfit`.
-/

set_option autoImplicit false

namespace Rtd

/-- The part of an authority that the modelled code reads: its stake. -/
structure Authority where
  stake : UInt64
  deriving DecidableEq, Repr

structure Committee where
  epoch : Nat
  totalStake : UInt64
  quorumThreshold : UInt64
  validityThreshold : UInt64
  authorities : List Authority
  deriving DecidableEq, Repr

namespace Committee

/-- Tolerate integer `f` faults when total stake is `3f+1`. -/
def faultToleranceFor (totalStake : UInt64) : UInt64 := (totalStake - 1) / 3

def quorumThresholdFor (totalStake : UInt64) : UInt64 :=
  totalStake - faultToleranceFor totalStake

def validityThresholdFor (totalStake : UInt64) : UInt64 :=
  faultToleranceFor totalStake + 1

/-- The condition of the assertion "Quorum must intersect under maxim equivocations!". -/
def quorumIntersects (totalStake : UInt64) : Bool :=
  2 * quorumThresholdFor totalStake - faultToleranceFor totalStake > totalStake

/-- `Committee::new`; `none` where one of its assertions panics. -/
def new (epoch : Nat) (authorities : List Authority) : Option Committee :=
  if authorities.isEmpty then none
  else if 4294967295 ≤ authorities.length then none
  else
    let totalStake := (authorities.map Authority.stake).sum
    if totalStake = 0 then none
    else if quorumIntersects totalStake then
      some ⟨epoch, totalStake, quorumThresholdFor totalStake,
        validityThresholdFor totalStake, authorities⟩
    else none

variable (c : Committee)

def size : Nat := c.authorities.length

/-- `Committee::stake`; indices past the end panic in the source and weigh nothing here. -/
def stake (i : Nat) : Nat :=
  match c.authorities[i]? with
  | some a => a.stake.toNat
  | none => 0

/-- `Committee::is_valid_index`. -/
def isValidIndex (i : Nat) : Bool := i < c.size

/-- `Committee::reached_quorum`. -/
def reachedQuorum (stake : Nat) : Bool := c.quorumThreshold.toNat ≤ stake

/-- `Committee::reached_validity`. -/
def reachedValidity (stake : Nat) : Bool := c.validityThreshold.toNat ≤ stake

/-- The stake of a set of authorities. -/
def stakeOf (s : Finset Nat) : Nat := ∑ i ∈ s, c.stake i

theorem stakeOf_mono {s s' : Finset Nat} (h : s ⊆ s') : c.stakeOf s ≤ c.stakeOf s' :=
  Finset.sum_le_sum_of_subset h

theorem reachedQuorum_mono {s s' : Nat} (h : c.reachedQuorum s = true) (hle : s ≤ s') :
    c.reachedQuorum s' = true := by
  simp only [reachedQuorum, decide_eq_true_eq] at h ⊢
  omega

/-- A set of valid authorities whose stake reaches the quorum threshold. -/
def IsQuorum (s : Finset Nat) : Prop :=
  s ⊆ Finset.range c.size ∧ c.reachedQuorum (c.stakeOf s) = true

theorem nonempty_of_reachedQuorum (hQ : 0 < c.quorumThreshold.toNat) {s : Finset Nat}
    (h : c.reachedQuorum (c.stakeOf s) = true) : s.Nonempty := by
  simp only [reachedQuorum, decide_eq_true_eq] at h
  have hpos : c.stakeOf s ≠ 0 := by omega
  exact Finset.nonempty_of_sum_ne_zero hpos

end Committee

/-! ### The thresholds as natural numbers -/

section Thresholds

variable {t : UInt64}

theorem faultToleranceFor_toNat (ht : 0 < t.toNat) :
    (Committee.faultToleranceFor t).toNat = (t.toNat - 1) / 3 := by
  have hsub : (t - 1).toNat = t.toNat - 1 := by
    rw [UInt64.toNat_sub_of_le] <;> simp [UInt64.le_iff_toNat_le]; omega
  simp [Committee.faultToleranceFor, hsub]

theorem quorumThresholdFor_toNat (ht : 0 < t.toNat) :
    (Committee.quorumThresholdFor t).toNat = t.toNat - (t.toNat - 1) / 3 := by
  have hf := faultToleranceFor_toNat ht
  unfold Committee.quorumThresholdFor
  rw [UInt64.toNat_sub_of_le, hf]
  rw [UInt64.le_iff_toNat_le, hf]
  omega

theorem validityThresholdFor_toNat (ht : 0 < t.toNat) :
    (Committee.validityThresholdFor t).toNat = (t.toNat - 1) / 3 + 1 := by
  have hf := faultToleranceFor_toNat ht
  have hlt := t.toNat_lt
  unfold Committee.validityThresholdFor
  rw [UInt64.toNat_add, hf]
  simp only [UInt64.toNat_one]
  omega

/-- The wrapped value of `2 * quorum - fault_tolerance` exceeds the total: without
overflow it is `T + (T - 3f)`, and past `2^64` the two wraps cancel. -/
theorem wrapped_assertion_gt {T : ℕ} (h0 : 0 < T) (hle : T ≤ 2 ^ 64 - 3) :
    T < (2 ^ 64 - (T - 1) / 3 + 2 * (T - (T - 1) / 3) % 2 ^ 64) % 2 ^ 64 := by
  obtain ⟨f, hf⟩ : ∃ f, f = (T - 1) / 3 := ⟨_, rfl⟩
  rw [← hf]
  have hf3 : 3 * f ≤ T - 1 ∧ T - 1 < 3 * f + 3 := by omega
  by_cases hw : 2 * (T - f) < 2 ^ 64
  · -- no overflow: only the subtraction wraps, and back again
    rw [Nat.mod_eq_of_lt hw]
    have hsplit : 2 ^ 64 - f + 2 * (T - f) = 2 ^ 64 + (2 * (T - f) - f) := by omega
    rw [hsplit, Nat.add_mod_left, Nat.mod_eq_of_lt (by omega)]
    omega
  · -- `2 * quorum` overflows once and the subtraction underflows once
    have hm : 2 * (T - f) % 2 ^ 64 = 2 * (T - f) - 2 ^ 64 := by
      rw [Nat.mod_eq_sub_mod (by omega), Nat.mod_eq_of_lt (by omega)]
    rw [hm, Nat.mod_eq_of_lt (by omega)]
    omega

/-- The assertion of `Committee::new` holds for every total up to `2^64 - 3`. -/
theorem quorumIntersects_of_le (ht : 0 < t.toNat) (hle : t.toNat ≤ 2 ^ 64 - 3) :
    Committee.quorumIntersects t = true := by
  have hq := quorumThresholdFor_toNat ht
  have hf := faultToleranceFor_toNat ht
  simp only [Committee.quorumIntersects, decide_eq_true_eq, UInt64.lt_iff_toNat_lt,
    UInt64.toNat_sub, UInt64.toNat_mul, hq, hf]
  simpa using wrapped_assertion_gt ht hle

end Thresholds

/-! ### Committees built by `Committee::new` -/

section New

theorem toNat_sum_map {l : List Authority} :
    (l.map Authority.stake).sum.toNat = (l.map (fun a => a.stake.toNat)).sum % 2 ^ 64 := by
  induction l with
  | nil => rfl
  | cons a l ih =>
    simp only [List.map_cons, List.sum_cons, UInt64.toNat_add, ih]
    omega

theorem sum_stake_range (c : Committee) :
    ∑ i ∈ Finset.range c.size, c.stake i = (c.authorities.map (fun a => a.stake.toNat)).sum := by
  unfold Committee.size Committee.stake
  induction c.authorities using List.reverseRecOn with
  | nil => simp
  | append_singleton l a ih =>
    rw [List.length_append, List.length_singleton, Finset.sum_range_succ]
    simp only [List.map_append, List.sum_append, List.map_cons, List.map_nil, List.sum_cons,
      List.sum_nil, add_zero, List.getElem?_append_right (Nat.le_refl _), Nat.sub_self,
      List.getElem?_cons_zero]
    rw [← ih]
    congr 1
    apply Finset.sum_congr rfl
    intro i hi
    rw [List.getElem?_append_left (Finset.mem_range.mp hi)]

/-- The stake of any set of authorities is at most the sum of all stakes: indices past the
end weigh nothing. -/
theorem stakeOf_le_sum (c : Committee) (s : Finset Nat) :
    c.stakeOf s ≤ (c.authorities.map (fun a => a.stake.toNat)).sum := by
  have hzero : ∀ i ∈ s, c.stake i ≠ 0 → i < c.size := by
    intro i _ hi
    by_contra hge
    apply hi
    simp [Committee.stake, List.getElem?_eq_none (Nat.le_of_not_lt hge)]
  unfold Committee.stakeOf
  rw [← Finset.sum_filter_of_ne hzero, ← sum_stake_range]
  exact Finset.sum_le_sum_of_subset fun i hi => Finset.mem_range.2 (Finset.mem_filter.1 hi).2

variable {epoch : Nat} {authorities : List Authority} {c : Committee}

/-- What `Committee::new` stores, when its assertions pass. -/
theorem new_spec (h : Committee.new epoch authorities = some c) :
    c.authorities = authorities ∧ c.totalStake = (authorities.map Authority.stake).sum ∧
      c.quorumThreshold = Committee.quorumThresholdFor c.totalStake ∧
      c.validityThreshold = Committee.validityThresholdFor c.totalStake ∧
      0 < c.totalStake.toNat := by
  unfold Committee.new at h
  split at h
  · cases h
  split at h
  · cases h
  dsimp only at h
  split at h
  · cases h
  rename_i hzero
  split at h
  · cases h
    refine ⟨rfl, rfl, rfl, rfl, Nat.pos_of_ne_zero fun h0 => hzero ?_⟩
    exact UInt64.toNat_inj.1 (by simpa using h0)
  · cases h

theorem quorumThreshold_pos_of_new (h : Committee.new epoch authorities = some c) :
    0 < c.quorumThreshold.toNat := by
  obtain ⟨-, -, hq, -, hpos⟩ := new_spec h
  rw [hq, quorumThresholdFor_toNat hpos]
  omega

theorem validityThreshold_of_new (h : Committee.new epoch authorities = some c) :
    c.validityThreshold.toNat = (c.totalStake.toNat - 1) / 3 + 1 := by
  obtain ⟨-, -, -, hv, hpos⟩ := new_spec h
  rw [hv, validityThresholdFor_toNat hpos]

/-- On a committee whose stakes sum without overflow, every threshold is the
number the source's comments name: `f = (T-1)/3`, `Q = T - f`, `V = f + 1`. -/
theorem thresholds_of_new (h : Committee.new epoch authorities = some c)
    (hfit : (authorities.map (fun a => a.stake.toNat)).sum < 2 ^ 64) :
    let T := (authorities.map (fun a => a.stake.toNat)).sum
    ∑ i ∈ Finset.range c.size, c.stake i = T ∧ 0 < T ∧
      c.quorumThreshold.toNat = T - (T - 1) / 3 ∧
      c.validityThreshold.toNat = (T - 1) / 3 + 1 := by
  obtain ⟨hauth, htotal, hq, hv, hpos⟩ := new_spec h
  have hT : c.totalStake.toNat = (authorities.map (fun a => a.stake.toNat)).sum := by
    rw [htotal, toNat_sum_map, Nat.mod_eq_of_lt hfit]
  refine ⟨by rw [sum_stake_range, hauth], by omega, ?_, ?_⟩
  · rw [hq, quorumThresholdFor_toNat hpos, hT]
  · rw [hv, validityThresholdFor_toNat hpos, hT]

/-- Quorum intersection on a committee built by `Committee::new`: two quorums meet
in a validity-weight set, and a validity set meets every quorum. -/
theorem quorums_intersect (h : Committee.new epoch authorities = some c)
    (hfit : (authorities.map (fun a => a.stake.toNat)).sum < 2 ^ 64)
    {A B : Finset Nat} (hA : A ⊆ Finset.range c.size) (hB : B ⊆ Finset.range c.size) :
    (c.reachedQuorum (c.stakeOf A) = true → c.reachedQuorum (c.stakeOf B) = true →
      c.reachedValidity (c.stakeOf (A ∩ B)) = true) ∧
    (c.reachedValidity (c.stakeOf A) = true → c.reachedQuorum (c.stakeOf B) = true →
      (A ∩ B).Nonempty) := by
  obtain ⟨hU, hpos, hq, hv⟩ := thresholds_of_new h hfit
  have hle := Weight.sum_add_sum_le_sum_inter_add c.stake hA hB
  simp only [Committee.reachedQuorum, Committee.reachedValidity, Committee.stakeOf,
    decide_eq_true_eq, hq, hv] at hU ⊢
  refine ⟨fun hqA hqB => by omega, fun hvA hqB => ?_⟩
  exact Weight.inter_nonempty_of_lt_add c.stake hA hB (by omega)

/-- `Committee::new`'s quorum assertion holds for every total stake up to
`2^64 - 3`, and on the committee it builds two quorums share a validity-weight
set, which has an authority outside any set lighter than the validity threshold,
while a validity set meets every quorum. -/
theorem committee_quorum_intersection (authorities : List Authority)
    (hpos : 0 < (authorities.map (fun a => a.stake.toNat)).sum)
    (hle : (authorities.map (fun a => a.stake.toNat)).sum ≤ 2 ^ 64 - 3) :
    Committee.quorumIntersects (authorities.map Authority.stake).sum = true ∧
    ∀ (epoch : Nat) (c : Committee), Committee.new epoch authorities = some c →
      ∀ A B : Finset Nat, A ⊆ Finset.range c.size → B ⊆ Finset.range c.size →
        (c.reachedQuorum (c.stakeOf A) = true → c.reachedQuorum (c.stakeOf B) = true →
          c.reachedValidity (c.stakeOf (A ∩ B)) = true ∧
          ∀ E : Finset Nat, c.stakeOf E < c.validityThreshold.toNat → ∃ i ∈ A ∩ B, i ∉ E) ∧
        (c.reachedValidity (c.stakeOf A) = true → c.reachedQuorum (c.stakeOf B) = true →
          (A ∩ B).Nonempty) := by
  have hfit : (authorities.map (fun a => a.stake.toNat)).sum < 2 ^ 64 := by omega
  have hT : ((authorities.map Authority.stake).sum).toNat =
      (authorities.map (fun a => a.stake.toNat)).sum := by
    rw [toNat_sum_map, Nat.mod_eq_of_lt hfit]
  refine ⟨quorumIntersects_of_le (by omega) (by omega), ?_⟩
  intro epoch c hnew A B hA hB
  obtain ⟨hinter, hmeet⟩ := quorums_intersect hnew hfit hA hB
  refine ⟨fun hqA hqB => ⟨hinter hqA hqB, fun E hE => ?_⟩, hmeet⟩
  have hV := hinter hqA hqB
  simp only [Committee.reachedValidity, decide_eq_true_eq] at hV
  exact Weight.exists_mem_not_mem_of_lt c.stake (by unfold Committee.stakeOf at hE hV; omega)

end New

/-! ### `StakeAggregator` -/

/-- The two `CommitteeThreshold` implementations. -/
inductive Threshold where
  | quorum
  | validity
  deriving DecidableEq, Repr

def Threshold.isThreshold : Threshold → Committee → Nat → Bool
  | .quorum, c, amount => c.reachedQuorum amount
  | .validity, c, amount => c.reachedValidity amount

/-- The votes counted so far, once per authority, and their total stake. -/
structure StakeAggregator where
  votes : Finset Nat
  stake : Nat
  deriving DecidableEq

namespace StakeAggregator

def new : StakeAggregator := ⟨∅, 0⟩

/-- Counts `vote` unless its authority has voted already. -/
def insertVote (agg : StakeAggregator) (vote : Nat) (c : Committee) : StakeAggregator :=
  if vote ∈ agg.votes then agg else ⟨insert vote agg.votes, agg.stake + c.stake vote⟩

/-- `StakeAggregator::add`: counts the vote and reports whether the threshold is reached. -/
def add (t : Threshold) (agg : StakeAggregator) (vote : Nat) (c : Committee) :
    StakeAggregator × Bool :=
  let agg := agg.insertVote vote c
  (agg, t.isThreshold c agg.stake)

/-- `StakeAggregator::add_unique`: counts the vote and reports whether it was new. -/
def addUnique (agg : StakeAggregator) (vote : Nat) (c : Committee) : StakeAggregator × Bool :=
  (agg.insertVote vote c, vote ∉ agg.votes)

/-- `StakeAggregator::clear`. -/
def clear (_agg : StakeAggregator) : StakeAggregator := new

/-- The aggregator's stake is the stake of the authorities it has counted. -/
def Counts (c : Committee) (agg : StakeAggregator) : Prop := agg.stake = c.stakeOf agg.votes

theorem counts_new (c : Committee) : Counts c new := by
  simp [Counts, new, Committee.stakeOf]

theorem counts_insertVote {c : Committee} {agg : StakeAggregator} (h : Counts c agg)
    (vote : Nat) : Counts c (agg.insertVote vote c) := by
  unfold insertVote
  split
  · exact h
  · rename_i hnew
    simp only [Counts, Committee.stakeOf] at h ⊢
    rw [Finset.sum_insert hnew, h]
    omega

/-- On a committee whose stakes add up below `2 ^ 64`, an aggregator that counts its votes
stays below `2 ^ 64`: the source's `u64` `+=` never wraps and holds the model's stake. -/
theorem stake_lt_of_counts {c : Committee}
    (hfit : (c.authorities.map (fun a => a.stake.toNat)).sum < 2 ^ 64) {agg : StakeAggregator}
    (h : Counts c agg) : agg.stake < 2 ^ 64 := by
  rw [h]
  exact lt_of_le_of_lt (stakeOf_le_sum c agg.votes) hfit

@[simp] theorem insertVote_votes (agg : StakeAggregator) (vote : Nat) (c : Committee) :
    (agg.insertVote vote c).votes = insert vote agg.votes := by
  unfold insertVote
  split
  · rename_i hmem
    exact (Finset.insert_eq_of_mem hmem).symm
  · rfl

end StakeAggregator

end Rtd
