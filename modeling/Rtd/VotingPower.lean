import Rtd.Except
import Rtd.MachineWord
import Mathlib

/-!
`rtd_system::voting_power` (`rtd-system/sources/voting_power.move`): the voting power of
the validators, out of `TOTAL_VOTING_POWER = 10000`, set from their stakes with a cap at a
threshold and the rest handed out greedily in stake order.

A validator is its stake and its voting power, the two fields the module reads and
writes. Amounts are `u64`: an overflow, an underflow or a division by zero aborts, as a
failed `assert!` does, and the model checks each of them where the source computes it.
-/

set_option autoImplicit false

namespace Rtd

namespace VotingPower

/-- Why `set_voting_power` aborts. -/
inductive Abort where
  /-- An integer overflow or underflow, or a division by zero. -/
  | arithmetic
  | votingPower (code : Nat)
  deriving DecidableEq, Repr

def totalVotingPower : Nat := 10000

def maxVotingPower : Nat := 1000

def eTotalPowerMismatch : Nat := 1
def eRelativePowerMismatch : Nat := 2
def eVotingPowerOverThreshold : Nat := 3
def eInvalidVotingPower : Nat := 4

structure Validator where
  totalStake : Nat
  votingPower : Nat
  deriving DecidableEq, Repr

structure VotingPowerInfoV2 where
  validatorIndex : Nat
  votingPower : Nat
  stake : Nat
  deriving DecidableEq, Repr

/-- A checked `u64` operation, aborting where it fails. -/
def arith (o : Option Nat) : Except Abort Nat :=
  match o with
  | some x => .ok x
  | none => .error .arithmetic

def moveAssert (b : Bool) (code : Nat) : Except Abort Unit :=
  if b then .ok () else .error (.votingPower code)

/-- `u64::divide_and_round_up`: `x / y`, plus one unless `y` divides `x`. -/
def divideAndRoundUp (x y : Nat) : Except Abort Nat := do
  let r ← arith (MachineWord.checkedRem x y)
  let q ← arith (MachineWord.checkedDiv x y)
  if r = 0 then pure q else arith (MachineWord.checkedAdd 64 q 1)

/-! ### The module's functions -/

/-- `derive_raw_voting_power`: the stake's share of `TOTAL_VOTING_POWER`, computed in
`u128` and cast back to `u64`. -/
def deriveRawVotingPower (stake totalStake : Nat) : Except Abort Nat := do
  let power ← arith (MachineWord.checkedDiv (stake * totalVotingPower) totalStake)
  if power < 2 ^ 64 then pure power else .error .arithmetic

/-- `insert`: put `newInfo` before the first entry whose stake it reaches, at the end if
there is none. -/
def insert (infoList : List VotingPowerInfoV2) (newInfo : VotingPowerInfoV2) :
    List VotingPowerInfoV2 :=
  let len := infoList.length
  let idx := infoList.findIdx? fun info => decide (newInfo.stake ≥ info.stake)
  infoList.insertIdx (idx.getD len) newInfo

/-- The loop of `init_voting_power_info` over the validators and their indices. -/
def initLoop (threshold totalStake : Nat) :
    List (Validator × Nat) → Nat → List VotingPowerInfoV2 →
      Except Abort (Nat × List VotingPowerInfoV2)
  | [], totalPower, result => .ok (totalPower, result)
  | (v, i) :: rest, totalPower, result => do
    let stake := v.totalStake
    let votingPower := min (← deriveRawVotingPower stake totalStake) threshold
    let result := insert result ⟨i, votingPower, stake⟩
    let totalPower ← arith (MachineWord.checkedAdd 64 totalPower votingPower)
    initLoop threshold totalStake rest totalPower result

/-- `init_voting_power_info`: each validator's share of the stake, capped at the
threshold, sorted by stake; and the power left to hand out. -/
def initVotingPowerInfo (validators : List Validator) (threshold totalStake : Nat) :
    Except Abort (List VotingPowerInfoV2 × Nat) := do
  let (totalPower, result) ← initLoop threshold totalStake validators.zipIdx 0 []
  let remaining ← arith (MachineWord.checkedSub totalVotingPower totalPower)
  pure (result, remaining)

/-- The loop of `adjust_voting_power` over the entries from `i` on, `len - i` of them: each
is offered its share of what remains, rounded up and capped at the threshold. -/
def adjustLoop (threshold : Nat) :
    List VotingPowerInfoV2 → Nat → Except Abort (List VotingPowerInfoV2 × Nat)
  | [], remainingPower => .ok ([], remainingPower)
  | v :: rest, remainingPower =>
    if remainingPower > 0 then do
      let planned ← divideAndRoundUp remainingPower (rest.length + 1)
      let target := min threshold (← arith (MachineWord.checkedAdd 64 v.votingPower planned))
      let actual := min remainingPower (← arith (MachineWord.checkedSub target v.votingPower))
      let votingPower ← arith (MachineWord.checkedAdd 64 v.votingPower actual)
      moveAssert (decide (votingPower ≤ threshold)) eVotingPowerOverThreshold
      let remainingPower ← arith (MachineWord.checkedSub remainingPower actual)
      let (rest, remainingPower) ← adjustLoop threshold rest remainingPower
      pure ({ v with votingPower } :: rest, remainingPower)
    else .ok (v :: rest, remainingPower)

def adjustVotingPower (infoList : List VotingPowerInfoV2) (threshold remainingPower : Nat) :
    Except Abort (List VotingPowerInfoV2) := do
  let (infoList, remainingPower) ← adjustLoop threshold infoList remainingPower
  moveAssert (decide (remainingPower = 0)) eTotalPowerMismatch
  pure infoList

/-- `update_voting_power`: write each entry's power into its validator. -/
def updateVotingPower (validators : List Validator) (infoList : List VotingPowerInfoV2) :
    Except Abort (List Validator) :=
  infoList.foldlM (fun validators info =>
    if info.validatorIndex < validators.length then
      .ok (validators.modify info.validatorIndex fun v => { v with votingPower := info.votingPower })
    else .error .arithmetic) validators

/-- The order check of `check_invariants` between `a` and a validator `b` after it. -/
def checkPair (a b : Validator) : Except Abort Unit := do
  if a.totalStake > b.totalStake then
    moveAssert (decide (a.votingPower ≥ b.votingPower)) eRelativePowerMismatch
  if a.totalStake < b.totalStake then
    moveAssert (decide (a.votingPower ≤ b.votingPower)) eRelativePowerMismatch

/-- The order check of `check_invariants` between each validator and all after it. -/
def checkPairs : List Validator → Except Abort Unit
  | [] => .ok ()
  | a :: rest => do
    rest.forM (checkPair a)
    checkPairs rest

/-- One round of the sum in `check_invariants`: the power must be positive. -/
def addVotingPower (total : Nat) (v : Validator) : Except Abort Nat := do
  moveAssert (decide (v.votingPower > 0)) eInvalidVotingPower
  arith (MachineWord.checkedAdd 64 total v.votingPower)

/-- `check_invariants`: every power is positive, they add up to `TOTAL_VOTING_POWER`, and
a larger stake never has a smaller power. -/
def checkInvariants (v : List Validator) : Except Abort Unit := do
  let total ← v.foldlM addVotingPower 0
  moveAssert (decide (total = totalVotingPower)) eTotalPowerMismatch
  checkPairs v

/-- `set_voting_power`. -/
def setVotingPower (validators : List Validator) (totalStake : Nat) :
    Except Abort (List Validator) := do
  let totalVotingPower := totalVotingPower
  let averageVotingPower ← divideAndRoundUp totalVotingPower validators.length
  let threshold := min totalVotingPower (max maxVotingPower averageVotingPower)
  let (infoList, remainingPower) ← initVotingPowerInfo validators threshold totalStake
  let infoList ← adjustVotingPower infoList threshold remainingPower
  let validators ← updateVotingPower validators infoList
  checkInvariants validators
  pure validators

/-! ### Rounding up -/

section Arithmetic

theorem arith_checkedAdd {a b : Nat} (h : a + b < 2 ^ 64) :
    arith (MachineWord.checkedAdd 64 a b) = .ok (a + b) := by
  rw [MachineWord.checkedAdd_eq_some.2 ⟨h, rfl⟩]
  rfl

theorem arith_checkedSub {a b : Nat} (h : b ≤ a) :
    arith (MachineWord.checkedSub a b) = .ok (a - b) := by
  rw [MachineWord.checkedSub_eq_some.2 ⟨h, rfl⟩]
  rfl

/-- `x / y` rounded up. -/
def ceilDiv (x y : Nat) : Nat := (x + y - 1) / y

theorem ceilDiv_eq {x y : Nat} (hy : 0 < y) : ceilDiv x y = x / y + if x % y = 0 then 0 else 1 := by
  have hdm := Nat.div_add_mod x y
  have hmod := Nat.mod_lt x hy
  have hsplit : x + y - 1 = (x % y + y - 1) + y * (x / y) := by omega
  unfold ceilDiv
  rw [hsplit, Nat.add_mul_div_left _ _ hy, Nat.add_comm ((x % y + y - 1) / y)]
  congr 1
  split_ifs with hr
  · exact Nat.div_eq_of_lt (by omega)
  · exact Nat.div_eq_of_lt_le (by omega) (by omega)

theorem divideAndRoundUp_eq {x y : Nat} (hy : 0 < y) (hx : x < 2 ^ 64) :
    divideAndRoundUp x y = .ok (ceilDiv x y) := by
  unfold divideAndRoundUp
  rw [MachineWord.checkedRem_eq_some.2 ⟨hy, rfl⟩, MachineWord.checkedDiv_eq_some.2 ⟨hy, rfl⟩,
    ceilDiv_eq hy]
  show (if x % y = 0 then pure (x / y) else arith (MachineWord.checkedAdd 64 (x / y) 1)) = _
  split_ifs with hr
  · rfl
  · -- with a remainder `y > 1` and `x > 0`, so `x / y + 1 ≤ x` fits
    have hy1 : 1 < y := by
      by_contra h
      rw [show y = 1 by omega, Nat.mod_one] at hr
      exact hr rfl
    have hx0 : 0 < x := Nat.pos_of_ne_zero fun h => hr (by simp [h])
    have : x / y < x := Nat.div_lt_self hx0 hy1
    exact arith_checkedAdd (show x / y + 1 < 2 ^ 64 by omega)

theorem le_mul_ceilDiv {x y : Nat} (hy : 0 < y) : x ≤ y * ceilDiv x y := by
  have hdm := Nat.div_add_mod (x + y - 1) y
  have hmod := Nat.mod_lt (x + y - 1) hy
  unfold ceilDiv
  omega

/-- Rounding up gives the least multiple that covers `x`. -/
theorem ceilDiv_le_of_le_mul {x y c : Nat} (hy : 0 < y) (h : x ≤ y * c) : ceilDiv x y ≤ c := by
  unfold ceilDiv
  have : (x + y - 1) / y < c + 1 := by
    rw [Nat.div_lt_iff_lt_mul hy, Nat.succ_mul, Nat.mul_comm]
    omega
  omega

theorem ceilDiv_le_self {x y : Nat} (hy : 0 < y) : ceilDiv x y ≤ x :=
  ceilDiv_le_of_le_mul hy (Nat.le_mul_of_pos_left x hy)

/-- After the first of `m + 1` entries takes its share, the share of the `m` others is no
larger. -/
theorem ceilDiv_sub_le (x m : Nat) : ceilDiv (x - ceilDiv x (m + 1)) m ≤ ceilDiv x (m + 1) := by
  cases m with
  | zero => simp [ceilDiv]
  | succ m =>
    have hcover := le_mul_ceilDiv (x := x) (show 0 < m + 1 + 1 by omega)
    apply ceilDiv_le_of_le_mul (show 0 < m + 1 by omega)
    have hsplit : (m + 1 + 1) * ceilDiv x (m + 1 + 1) =
        (m + 1) * ceilDiv x (m + 1 + 1) + ceilDiv x (m + 1 + 1) := Nat.succ_mul _ _
    omega

theorem add_div_le_div_add (a b c : Nat) : a / c + b / c ≤ (a + b) / c := by
  rcases Nat.eq_zero_or_pos c with rfl | hc
  · simp
  · rw [Nat.le_div_iff_mul_le hc, Nat.add_mul]
    exact Nat.add_le_add (Nat.div_mul_le_self a c) (Nat.div_mul_le_self b c)

/-- Rounding each term down loses at least as much as rounding the sum down. -/
theorem sum_map_div_le (l : List Nat) (c : Nat) : (l.map (· / c)).sum ≤ l.sum / c := by
  induction l with
  | nil => simp
  | cons a l ih =>
    simp only [List.map_cons, List.sum_cons]
    exact Nat.le_trans (Nat.add_le_add_left ih _) (add_div_le_div_add a l.sum c)

theorem deriveRawVotingPower_eq {stake totalStake : Nat} (h : 0 < totalStake)
    (hs : stake ≤ totalStake) :
    deriveRawVotingPower stake totalStake = .ok (stake * totalVotingPower / totalStake) := by
  have hle : stake * totalVotingPower / totalStake ≤ totalVotingPower :=
    Nat.div_le_of_le_mul (Nat.mul_le_mul_right _ hs)
  unfold deriveRawVotingPower
  rw [MachineWord.checkedDiv_eq_some.2 ⟨h, rfl⟩]
  show (if stake * totalVotingPower / totalStake < 2 ^ 64 then pure _ else _) = _
  rw [if_pos (by unfold totalVotingPower at hle ⊢; omega)]
  rfl

end Arithmetic

/-! ### Sorting by stake -/

section Insert

/-- The entries are in order of non-increasing stake. -/
def SortedByStake (l : List VotingPowerInfoV2) : Prop := l.Pairwise fun a b => b.stake ≤ a.stake

theorem insert_nil (x : VotingPowerInfoV2) : insert [] x = [x] := rfl

theorem insert_cons (y x : VotingPowerInfoV2) (ys : List VotingPowerInfoV2) :
    insert (y :: ys) x = if y.stake ≤ x.stake then x :: y :: ys else y :: insert ys x := by
  unfold insert
  by_cases h : y.stake ≤ x.stake
  · simp [List.findIdx?_cons, h]
  · simp [List.findIdx?_cons, h]

theorem insert_perm (l : List VotingPowerInfoV2) (x : VotingPowerInfoV2) :
    (insert l x).Perm (x :: l) := by
  induction l with
  | nil => exact List.Perm.refl _
  | cons y ys ih =>
    rw [insert_cons]
    split_ifs
    · exact List.Perm.refl _
    · exact (ih.cons y).trans (List.Perm.swap x y ys)

theorem SortedByStake.insert {l : List VotingPowerInfoV2} (h : SortedByStake l)
    (x : VotingPowerInfoV2) : SortedByStake (insert l x) := by
  induction l with
  | nil => exact List.pairwise_singleton _ _
  | cons y ys ih =>
    obtain ⟨hy, hys⟩ := List.pairwise_cons.1 h
    rw [insert_cons]
    split_ifs with hxy
    · refine List.pairwise_cons.2 ⟨fun z hz => ?_, h⟩
      rcases List.mem_cons.1 hz with rfl | hz
      · exact hxy
      · exact Nat.le_trans (hy z hz) hxy
    · refine List.pairwise_cons.2 ⟨fun z hz => ?_, ih hys⟩
      rcases List.mem_cons.1 ((insert_perm ys x).mem_iff.1 hz) with rfl | hz
      · omega
      · exact hy z hz

end Insert

/-! ### The initial powers -/

/-- The total power of a list of entries. -/
def powerSum (l : List VotingPowerInfoV2) : Nat := (l.map VotingPowerInfoV2.votingPower).sum

@[simp] theorem powerSum_nil : powerSum [] = 0 := rfl

@[simp] theorem powerSum_cons (x : VotingPowerInfoV2) (l : List VotingPowerInfoV2) :
    powerSum (x :: l) = x.votingPower + powerSum l := rfl

@[simp] theorem powerSum_append (l l' : List VotingPowerInfoV2) :
    powerSum (l ++ l') = powerSum l + powerSum l' := by
  simp [powerSum]

theorem powerSum_eq_of_perm {l l' : List VotingPowerInfoV2} (h : l.Perm l') :
    powerSum l = powerSum l' :=
  (h.map _).sum_eq

section Init

variable (threshold totalStake : Nat)

/-- The entry that `init_voting_power_info` makes for a validator at its index: its stake's
share, capped at the threshold. -/
def rawInfo (p : Validator × Nat) : VotingPowerInfoV2 :=
  ⟨p.2, min (p.1.totalStake * totalVotingPower / totalStake) threshold, p.1.totalStake⟩

variable {threshold totalStake}

/-- The loop adds each validator's entry to the total and inserts it by stake. -/
theorem initLoop_spec (hS : 0 < totalStake) (l : List (Validator × Nat)) :
    ∀ (totalPower : Nat) (result : List VotingPowerInfoV2),
      (∀ p ∈ l, p.1.totalStake ≤ totalStake) →
      totalPower + powerSum (l.map (rawInfo threshold totalStake)) < 2 ^ 64 →
      SortedByStake result →
      ∃ result', initLoop threshold totalStake l totalPower result =
          .ok (totalPower + powerSum (l.map (rawInfo threshold totalStake)), result') ∧
        result'.Perm (l.map (rawInfo threshold totalStake) ++ result) ∧ SortedByStake result' := by
  induction l with
  | nil => exact fun totalPower result _ _ hr => ⟨result, by simp [initLoop], List.Perm.refl _, hr⟩
  | cons p rest ih =>
    obtain ⟨v, i⟩ := p
    intro totalPower result hs hlt hr
    have hraw := deriveRawVotingPower_eq hS (hs (v, i) List.mem_cons_self)
    have hvp : (rawInfo threshold totalStake (v, i)).votingPower =
        min (v.totalStake * totalVotingPower / totalStake) threshold := rfl
    simp only [List.map_cons, powerSum_cons, hvp] at hlt
    obtain ⟨result', hrun, hperm, hsorted⟩ :=
      ih (totalPower + min (v.totalStake * totalVotingPower / totalStake) threshold)
        (insert result (rawInfo threshold totalStake (v, i)))
        (fun p hp => hs p (List.mem_cons_of_mem _ hp)) (by omega) (hr.insert _)
    refine ⟨result', ?_, ?_, hsorted⟩
    · simp only [initLoop, hraw, Except.ok_bind]
      rw [arith_checkedAdd (by omega), Except.ok_bind]
      exact hrun.trans (by simp only [List.map_cons, powerSum_cons, hvp, Nat.add_assoc])
    · -- the new entry sits somewhere in the sorted part; as a multiset it is at the front
      exact (hperm.trans ((insert_perm result _).append_left _)).trans List.perm_middle

/-- With the stakes adding up to the total stake, the shares, rounded down and capped, add
up to at most `TOTAL_VOTING_POWER`. -/
theorem powerSum_rawInfo_le (hS : 0 < totalStake) (validators : List Validator)
    (hsum : (validators.map Validator.totalStake).sum = totalStake) :
    powerSum (validators.zipIdx.map (rawInfo threshold totalStake)) ≤ totalVotingPower := by
  have hshare : validators.zipIdx.map (fun p => (rawInfo threshold totalStake p).votingPower) =
      validators.map fun v => min (v.totalStake * totalVotingPower / totalStake) threshold := by
    rw [← List.zipIdx_map_fst 0 validators, List.map_map]
    simp only [List.zipIdx_map_fst]
    rfl
  calc powerSum (validators.zipIdx.map (rawInfo threshold totalStake))
      = (validators.map fun v => min (v.totalStake * totalVotingPower / totalStake) threshold).sum := by
        rw [powerSum, List.map_map, ← hshare]
        rfl
    _ ≤ ((validators.map fun v => v.totalStake * totalVotingPower).map (· / totalStake)).sum := by
        rw [List.map_map]
        exact List.sum_le_sum fun v _ => Nat.min_le_left _ _
    _ ≤ (validators.map fun v => v.totalStake * totalVotingPower).sum / totalStake :=
        sum_map_div_le _ _
    _ = totalVotingPower := by
        rw [List.sum_map_mul_right, hsum, Nat.mul_div_cancel_left _ hS]

/-- `init_voting_power_info` gives the capped shares sorted by stake and the power still to
hand out. -/
theorem initVotingPowerInfo_spec (hS : 0 < totalStake) (validators : List Validator)
    (hsum : (validators.map Validator.totalStake).sum = totalStake) :
    ∃ infoList, initVotingPowerInfo validators threshold totalStake =
        .ok (infoList, totalVotingPower -
          powerSum (validators.zipIdx.map (rawInfo threshold totalStake))) ∧
      infoList.Perm (validators.zipIdx.map (rawInfo threshold totalStake)) ∧
      SortedByStake infoList := by
  have hle : powerSum (validators.zipIdx.map (rawInfo threshold totalStake)) ≤ totalVotingPower :=
    powerSum_rawInfo_le hS validators hsum
  have hs : ∀ p ∈ validators.zipIdx, p.1.totalStake ≤ totalStake := fun p hp =>
    hsum ▸ List.le_sum_of_mem (List.mem_map_of_mem (List.fst_mem_of_mem_zipIdx hp))
  obtain ⟨infoList, hrun, hperm, hsorted⟩ :=
    @initLoop_spec threshold totalStake hS validators.zipIdx 0 [] hs
      (by unfold totalVotingPower at hle; omega) List.Pairwise.nil
  refine ⟨infoList, ?_, by simpa using hperm, hsorted⟩
  simp only [initVotingPowerInfo, hrun, Except.ok_bind, Nat.zero_add]
  rw [arith_checkedSub hle]
  rfl

end Init

/-! ### Handing out the rest -/

/-- What `adjust_voting_power` adds to an entry of power `votingPower` with `remainingPower`
left for `n` entries: its share rounded up, capped by the threshold and by what remains. -/
def increase (threshold remainingPower n votingPower : Nat) : Nat :=
  min remainingPower (min threshold (votingPower + ceilDiv remainingPower n) - votingPower)

theorem moveAssert_of_true {b : Bool} (h : b = true) (code : Nat) : moveAssert b code = .ok () := by
  simp [moveAssert, h]

section Adjust

variable {threshold : Nat}

/-- Either the entry takes its whole share, or it is filled up to the threshold and its room
is less than the share. -/
theorem increase_cases {R n vp : Nat} (hR : 0 < R) (hn : 0 < n) (hx : vp ≤ threshold) :
    (increase threshold R n vp = ceilDiv R n ∧ vp + ceilDiv R n ≤ threshold) ∨
      (vp + increase threshold R n vp = threshold ∧ threshold - vp < ceilDiv R n) := by
  have hq : ceilDiv R n ≤ R := ceilDiv_le_self hn
  unfold increase
  omega

theorem increase_le_remaining (threshold R n vp : Nat) : increase threshold R n vp ≤ R :=
  Nat.min_le_left _ _

theorem add_increase_le {R n vp : Nat} (hx : vp ≤ threshold) :
    vp + increase threshold R n vp ≤ threshold := by
  unfold increase
  omega

/-- One round of the loop with power left: the entry takes its `increase` and the loop goes
on with the rest. -/
theorem adjustLoop_cons_of_pos {x : VotingPowerInfoV2} {rest : List VotingPowerInfoV2} {R : Nat}
    (hR : 0 < R) (hx : x.votingPower ≤ threshold) (hfit : threshold + R < 2 ^ 64) :
    adjustLoop threshold (x :: rest) R = (do
      let (out, r) ← adjustLoop threshold rest
        (R - increase threshold R (rest.length + 1) x.votingPower)
      pure ({ x with
        votingPower := x.votingPower + increase threshold R (rest.length + 1) x.votingPower } ::
          out, r)) := by
  have hn : 0 < rest.length + 1 := by omega
  have hq : ceilDiv R (rest.length + 1) ≤ R := ceilDiv_le_self hn
  have hinc : increase threshold R (rest.length + 1) x.votingPower ≤ R :=
    increase_le_remaining threshold R _ _
  have hle := add_increase_le (R := R) (n := rest.length + 1) hx
  rw [adjustLoop, if_pos hR, divideAndRoundUp_eq hn (by omega), Except.ok_bind,
    arith_checkedAdd (by omega), Except.ok_bind]
  dsimp only
  rw [arith_checkedSub (Nat.le_min.2 ⟨hx, Nat.le_add_right _ _⟩), Except.ok_bind]
  have hfold : min R (min threshold (x.votingPower + ceilDiv R (rest.length + 1)) - x.votingPower) =
      increase threshold R (rest.length + 1) x.votingPower := rfl
  rw [hfold, arith_checkedAdd (by omega), Except.ok_bind,
    moveAssert_of_true (decide_eq_true hle), Except.ok_bind, arith_checkedSub hinc, Except.ok_bind]

/-- The round above, read backwards: a successful run took the increase and succeeded on the
rest. -/
theorem adjustLoop_cons_eq_ok {x : VotingPowerInfoV2} {rest out : List VotingPowerInfoV2}
    {R R' : Nat} (hR : 0 < R) (hx : x.votingPower ≤ threshold) (hfit : threshold + R < 2 ^ 64) :
    adjustLoop threshold (x :: rest) R = .ok (out, R') ↔
      ∃ out', adjustLoop threshold rest
          (R - increase threshold R (rest.length + 1) x.votingPower) = .ok (out', R') ∧
        out = { x with votingPower :=
          x.votingPower + increase threshold R (rest.length + 1) x.votingPower } :: out' := by
  rw [adjustLoop_cons_of_pos hR hx hfit]
  cases adjustLoop threshold rest (R - increase threshold R (rest.length + 1) x.votingPower) with
  | error e => simp
  | ok p =>
    obtain ⟨out', r⟩ := p
    simp only [Except.ok_bind, Except.pure_eq_ok, Except.ok.injEq, Prod.mk.injEq]
    constructor
    · rintro ⟨rfl, rfl⟩
      exact ⟨out', ⟨rfl, rfl⟩, rfl⟩
    · rintro ⟨_, ⟨rfl, rfl⟩, rfl⟩
      exact ⟨rfl, rfl⟩

theorem adjustLoop_zero (l : List VotingPowerInfoV2) : adjustLoop threshold l 0 = .ok (l, 0) := by
  cases l <;> rfl

/-- The loop only raises powers, and only up to the threshold; index and stake stay. -/
def Raised (threshold : Nat) (a b : VotingPowerInfoV2) : Prop :=
  b.validatorIndex = a.validatorIndex ∧ b.stake = a.stake ∧
    a.votingPower ≤ b.votingPower ∧ b.votingPower ≤ threshold

theorem forall₂_raised_self {l : List VotingPowerInfoV2}
    (h : ∀ y ∈ l, y.votingPower ≤ threshold) : List.Forall₂ (Raised threshold) l l := by
  induction l with
  | nil => exact List.Forall₂.nil
  | cons y l ih =>
    exact List.Forall₂.cons ⟨rfl, rfl, Nat.le_refl _, h y List.mem_cons_self⟩
      (ih fun z hz => h z (List.mem_cons_of_mem _ hz))

/-- No entry ends above `B` if every power starts at most `M` and `M` plus the first share
is at most `B`, or if `B` is at least the threshold. A capped entry is filled to the
threshold, so after it the second case carries on. -/
theorem adjustLoop_le_of_share (l : List VotingPowerInfoV2) :
    ∀ {R M B : Nat} {out : List VotingPowerInfoV2} {R' : Nat},
      (∀ y ∈ l, y.votingPower ≤ threshold) → threshold + R < 2 ^ 64 →
      (∀ y ∈ l, y.votingPower ≤ M) → (M + ceilDiv R l.length ≤ B ∨ threshold ≤ B) →
      adjustLoop threshold l R = .ok (out, R') → ∀ z ∈ out, z.votingPower ≤ B := by
  induction l with
  | nil =>
    intro R M B out R' _ _ _ _ hrun z hz
    cases hrun
    simp at hz
  | cons x rest ih =>
    intro R M B out R' hT hfit hM hB hrun
    have hx := hT x List.mem_cons_self
    rcases Nat.eq_zero_or_pos R with rfl | hR
    · -- nothing left: the entries come back unchanged
      rw [adjustLoop_zero] at hrun
      cases hrun
      intro z hz
      rcases hB with hB | hB
      · exact Nat.le_trans (hM z hz) (Nat.le_of_add_right_le hB)
      · exact Nat.le_trans (hT z hz) hB
    · obtain ⟨out', hrest, rfl⟩ := (adjustLoop_cons_eq_ok hR hx hfit).1 hrun
      have hTrest : ∀ y ∈ rest, y.votingPower ≤ threshold := fun y hy => hT y (List.mem_cons_of_mem _ hy)
      have hMrest : ∀ y ∈ rest, y.votingPower ≤ M := fun y hy => hM y (List.mem_cons_of_mem _ hy)
      have hinc := increase_le_remaining threshold R (rest.length + 1) x.votingPower
      have hshare := ceilDiv_sub_le R rest.length
      have hxM := hM x List.mem_cons_self
      simp only [List.length_cons] at hB
      rintro z (_ | ⟨_, hz⟩)
      · -- the first entry gets at most its share and at most the threshold
        dsimp only
        unfold increase
        omega
      · rcases increase_cases hR (show 0 < rest.length + 1 by omega) hx with ⟨hfull, _⟩ | ⟨hcap, _⟩
        · refine ih hTrest (by omega) hMrest ?_ hrest z hz
          rw [hfull]
          omega
        · exact ih hTrest (by omega) hMrest (Or.inr (by omega)) hrest z hz

/-- What the loop needs of its input: the powers are within the threshold and do not increase
along the list, the entries have room for what is left, and nothing overflows. -/
structure Adjustable (threshold : Nat) (l : List VotingPowerInfoV2) (remainingPower : Nat) :
    Prop where
  le_threshold : ∀ y ∈ l, y.votingPower ≤ threshold
  antitone : l.Pairwise fun a b => b.votingPower ≤ a.votingPower
  room : remainingPower ≤ (l.map fun y => threshold - y.votingPower).sum
  fits : threshold + remainingPower < 2 ^ 64

theorem length_mul_le_room {l : List VotingPowerInfoV2} {c : Nat}
    (h : ∀ y ∈ l, c ≤ threshold - y.votingPower) :
    l.length * c ≤ (l.map fun y => threshold - y.votingPower).sum := by
  have := List.card_nsmul_le_sum (l.map fun y => threshold - y.votingPower) c (by simpa using h)
  simpa using this

/-- After one round the rest can take what remains: a capped entry used up its own room, and an
uncapped one took a share that every later entry, no fuller than it, has room for. -/
theorem Adjustable.tail {x : VotingPowerInfoV2} {rest : List VotingPowerInfoV2} {R : Nat}
    (h : Adjustable threshold (x :: rest) R) (hR : 0 < R) :
    Adjustable threshold rest (R - increase threshold R (rest.length + 1) x.votingPower) where
  le_threshold y hy := h.le_threshold y (List.mem_cons_of_mem _ hy)
  antitone := h.antitone.of_cons
  room := by
    have hx := h.le_threshold x List.mem_cons_self
    have hroom := h.room
    simp only [List.map_cons, List.sum_cons] at hroom
    rcases increase_cases hR (show 0 < rest.length + 1 by omega) hx with ⟨hfull, hfits⟩ | ⟨hcap, _⟩
    · have hcover := le_mul_ceilDiv (x := R) (show 0 < rest.length + 1 by omega)
      have hsplit : (rest.length + 1) * ceilDiv R (rest.length + 1) =
          rest.length * ceilDiv R (rest.length + 1) + ceilDiv R (rest.length + 1) := Nat.succ_mul _ _
      have hlater : rest.length * ceilDiv R (rest.length + 1) ≤
          (rest.map fun y => threshold - y.votingPower).sum :=
        length_mul_le_room fun y hy => by
          have := List.rel_of_pairwise_cons h.antitone hy
          omega
      rw [hfull]
      omega
    · omega
  fits := by
    have := increase_le_remaining threshold R (rest.length + 1) x.votingPower
    have := h.fits
    omega

/-- The loop hands out everything: it ends with nothing left, only raises powers and only up
to the threshold, adds exactly what was left, and leaves the powers non-increasing along the
list. -/
theorem adjustLoop_spec (l : List VotingPowerInfoV2) : ∀ {R : Nat}, Adjustable threshold l R →
    ∃ out, adjustLoop threshold l R = .ok (out, 0) ∧ List.Forall₂ (Raised threshold) l out ∧
      powerSum out = powerSum l + R ∧ out.Pairwise fun a b => b.votingPower ≤ a.votingPower := by
  induction l with
  | nil =>
    intro R h
    have hR : R = 0 := by simpa using h.room
    subst hR
    exact ⟨[], rfl, List.Forall₂.nil, rfl, List.Pairwise.nil⟩
  | cons x rest ih =>
    intro R h
    rcases Nat.eq_zero_or_pos R with rfl | hR
    · exact ⟨x :: rest, adjustLoop_zero _, forall₂_raised_self h.le_threshold, rfl, h.antitone⟩
    · have hx := h.le_threshold x List.mem_cons_self
      have hinc := increase_le_remaining threshold R (rest.length + 1) x.votingPower
      obtain ⟨out', hrun, hF, hsum, hP⟩ := ih (h.tail hR)
      refine ⟨_, (adjustLoop_cons_eq_ok hR hx h.fits).2 ⟨out', hrun, rfl⟩, ?_, ?_, ?_⟩
      · exact List.Forall₂.cons ⟨rfl, rfl, Nat.le_add_right _ _, add_increase_le hx⟩ hF
      · simp only [powerSum_cons]
        omega
      · -- every later power stays within this entry's new one
        have hshare := ceilDiv_sub_le R rest.length
        have hB : x.votingPower + ceilDiv (R - increase threshold R (rest.length + 1) x.votingPower)
            rest.length ≤ x.votingPower + increase threshold R (rest.length + 1) x.votingPower ∨
            threshold ≤ x.votingPower + increase threshold R (rest.length + 1) x.votingPower := by
          rcases increase_cases hR (show 0 < rest.length + 1 by omega) hx with ⟨hfull, _⟩ | ⟨hcap, _⟩
          · rw [hfull]
            omega
          · omega
        refine List.pairwise_cons.2 ⟨fun z hz => ?_, hP⟩
        exact adjustLoop_le_of_share rest (h.tail hR).le_threshold (h.tail hR).fits
          (fun y hy => List.rel_of_pairwise_cons h.antitone hy) hB hrun z hz

theorem adjustVotingPower_spec {l : List VotingPowerInfoV2} {R : Nat}
    (h : Adjustable threshold l R) :
    ∃ out, adjustVotingPower l threshold R = .ok out ∧ List.Forall₂ (Raised threshold) l out ∧
      powerSum out = powerSum l + R ∧ out.Pairwise fun a b => b.votingPower ≤ a.votingPower := by
  obtain ⟨out, hrun, hF, hsum, hP⟩ := adjustLoop_spec l h
  refine ⟨out, ?_, hF, hsum, hP⟩
  simp only [adjustVotingPower, hrun, Except.ok_bind]
  rfl

end Adjust

/-! ### Writing the powers back -/

section Update

/-- `update_voting_power` once every index is in range: each entry's power written into its
validator, in the order of the list. -/
def applyVotingPowers (validators : List Validator) (infoList : List VotingPowerInfoV2) :
    List Validator :=
  infoList.foldl (fun validators info =>
    validators.modify info.validatorIndex fun v => { v with votingPower := info.votingPower })
    validators

theorem updateVotingPower_eq {l : List VotingPowerInfoV2} :
    ∀ {vs : List Validator}, (∀ e ∈ l, e.validatorIndex < vs.length) →
      updateVotingPower vs l = .ok (applyVotingPowers vs l) := by
  induction l with
  | nil => exact fun _ => rfl
  | cons e l ih =>
    intro vs h
    unfold updateVotingPower at ih ⊢
    rw [List.foldlM_cons, if_pos (h e List.mem_cons_self), Except.ok_bind]
    exact ih fun e' he' => by
      rw [List.length_modify]
      exact h e' (List.mem_cons_of_mem _ he')

@[simp] theorem length_applyVotingPowers (vs : List Validator) (l : List VotingPowerInfoV2) :
    (applyVotingPowers vs l).length = vs.length := by
  induction l generalizing vs with
  | nil => rfl
  | cons e l ih => exact (ih _).trans (List.length_modify _ _ _)

@[simp] theorem map_totalStake_applyVotingPowers (vs : List Validator)
    (l : List VotingPowerInfoV2) :
    (applyVotingPowers vs l).map Validator.totalStake = vs.map Validator.totalStake := by
  induction l generalizing vs with
  | nil => rfl
  | cons e l ih =>
    refine (ih _).trans (List.ext_getElem? fun i => ?_)
    simp only [List.getElem?_map, List.getElem?_modify]
    cases vs[i]? <;> simp only [Option.map_none, Option.map_some, Option.map_eq_map]
    split_ifs <;> rfl

theorem getElem?_applyVotingPowers_of_not_mem {i : Nat} {l : List VotingPowerInfoV2}
    (h : i ∉ l.map VotingPowerInfoV2.validatorIndex) (vs : List Validator) :
    (applyVotingPowers vs l)[i]? = vs[i]? := by
  induction l generalizing vs with
  | nil => rfl
  | cons e l ih =>
    rw [List.map_cons, List.mem_cons, not_or] at h
    refine (ih h.2 _).trans ?_
    simp only [List.getElem?_modify, if_neg (Ne.symm h.1)]
    exact id_map _

theorem getElem?_applyVotingPowers_of_mem {e : VotingPowerInfoV2} {l : List VotingPowerInfoV2}
    (hnd : (l.map VotingPowerInfoV2.validatorIndex).Nodup) (he : e ∈ l) (vs : List Validator) :
    (applyVotingPowers vs l)[e.validatorIndex]? =
      vs[e.validatorIndex]?.map fun v => { v with votingPower := e.votingPower } := by
  induction l generalizing vs with
  | nil => exact absurd he List.not_mem_nil
  | cons e' l ih =>
    rw [List.map_cons, List.nodup_cons] at hnd
    rcases List.mem_cons.1 he with rfl | he
    · refine (getElem?_applyVotingPowers_of_not_mem hnd.1 _).trans ?_
      simp
    · have hne : e'.validatorIndex ≠ e.validatorIndex := fun h =>
        hnd.1 (h ▸ List.mem_map_of_mem he)
      refine (ih hnd.2 he _).trans ?_
      simp only [List.getElem?_modify, if_neg hne]
      exact congrArg _ (id_map _)

theorem sum_map_eq_sum_range {α : Type} (l : List α) (g : α → Nat) :
    (l.map g).sum = ((List.range l.length).map fun i => (l[i]?.map g).getD 0).sum := by
  induction l with
  | nil => rfl
  | cons a l ih =>
    rw [List.length_cons, List.range_succ_eq_map, List.map_cons, List.map_cons, List.map_map,
      List.sum_cons, List.sum_cons, ih]
    rfl

/-- With the entries naming every validator once, `update_voting_power` succeeds, keeps the
stakes, and gives each validator the stake and power of the entry that names it; the powers
then add up to the entries' total. -/
theorem updateVotingPower_spec (vs : List Validator) (l : List VotingPowerInfoV2)
    (hidx : (l.map VotingPowerInfoV2.validatorIndex).Perm (List.range vs.length))
    (hstake : ∀ e ∈ l, vs[e.validatorIndex]?.map Validator.totalStake = some e.stake) :
    ∃ r, updateVotingPower vs l = .ok r ∧
      r.map Validator.totalStake = vs.map Validator.totalStake ∧
      (r.map Validator.votingPower).sum = powerSum l ∧
      ∀ v ∈ r, ∃ e ∈ l, v = ⟨e.stake, e.votingPower⟩ := by
  have hnd : (l.map VotingPowerInfoV2.validatorIndex).Nodup := hidx.nodup_iff.2 List.nodup_range
  have hlt : ∀ e ∈ l, e.validatorIndex < vs.length := fun e he =>
    List.mem_range.1 (hidx.subset (List.mem_map_of_mem he))
  have hwrite : ∀ e ∈ l,
      (applyVotingPowers vs l)[e.validatorIndex]? = some ⟨e.stake, e.votingPower⟩ := by
    intro e he
    have hs := hstake e he
    rw [getElem?_applyVotingPowers_of_mem hnd he]
    cases hv : vs[e.validatorIndex]? with
    | none => simp [hv] at hs
    | some v =>
      simp only [hv, Option.map_some, Option.some.injEq] at hs ⊢
      rw [hs]
  refine ⟨_, updateVotingPower_eq hlt, map_totalStake_applyVotingPowers vs l, ?_, ?_⟩
  · -- sum over the positions, then over the entries that name them
    rw [sum_map_eq_sum_range, length_applyVotingPowers, ← (hidx.map _).sum_eq, List.map_map,
      powerSum]
    refine congrArg List.sum (List.map_congr_left fun e he => ?_)
    simp [hwrite e he]
  · intro v hv
    obtain ⟨i, hi, rfl⟩ := List.mem_iff_getElem.1 hv
    have hi' : i ∈ l.map VotingPowerInfoV2.validatorIndex :=
      hidx.symm.subset (List.mem_range.2 (by simpa using hi))
    obtain ⟨e, he, rfl⟩ := List.mem_map.1 hi'
    refine ⟨e, he, ?_⟩
    have hw := hwrite e he
    rw [List.getElem?_eq_getElem hi] at hw
    exact Option.some.inj hw

end Update

/-! ### The checks -/

section Check

/-- The order that `check_invariants` asks of two validators, either way round: a larger stake
never has a smaller power. -/
def PowerOrdered (a b : Validator) : Prop :=
  (b.totalStake < a.totalStake → b.votingPower ≤ a.votingPower) ∧
    (a.totalStake < b.totalStake → a.votingPower ≤ b.votingPower)

instance : Std.Symm PowerOrdered := ⟨fun _ _ h => ⟨h.2, h.1⟩⟩

theorem powerOrdered_refl (a : Validator) : PowerOrdered a a :=
  ⟨fun h => absurd h (Nat.lt_irrefl _), fun h => absurd h (Nat.lt_irrefl _)⟩

theorem powerOrdered_of_mem {l : List Validator} (h : l.Pairwise PowerOrdered)
    {a b : Validator} (ha : a ∈ l) (hb : b ∈ l) : PowerOrdered a b := by
  by_cases hab : a = b
  · rw [hab]
    exact powerOrdered_refl b
  · exact h.forall ha hb hab

theorem checkPair_eq_ok {a b : Validator} : checkPair a b = .ok () ↔ PowerOrdered a b := by
  unfold checkPair PowerOrdered
  by_cases h1 : b.totalStake < a.totalStake
  · have h2 : ¬a.totalStake < b.totalStake := by omega
    simp [h1, h2, moveAssert]
  · by_cases h2 : a.totalStake < b.totalStake
    · simp [h1, h2, moveAssert]
    · simp [h1, h2]

theorem checkPairs_eq_ok {l : List Validator} : checkPairs l = .ok () ↔ l.Pairwise PowerOrdered := by
  induction l with
  | nil => simp [checkPairs]
  | cons a rest ih =>
    rw [checkPairs, Except.bind_eq_ok, List.pairwise_cons, ← ih]
    constructor
    · rintro ⟨⟨⟩, hpairs, hrest⟩
      exact ⟨fun b hb => checkPair_eq_ok.1 (Except.forM_eq_ok.1 hpairs b hb), hrest⟩
    · rintro ⟨hpairs, hrest⟩
      exact ⟨(), Except.forM_eq_ok.2 fun b hb => checkPair_eq_ok.2 (hpairs b hb), hrest⟩

/-- The sum in `check_invariants` over positive powers whose total fits in a `u64`. -/
theorem foldlM_addVotingPower {l : List Validator} :
    ∀ {acc : Nat}, (∀ v ∈ l, 0 < v.votingPower) →
      acc + (l.map Validator.votingPower).sum < 2 ^ 64 →
      l.foldlM addVotingPower acc = .ok (acc + (l.map Validator.votingPower).sum) := by
  induction l with
  | nil => exact fun _ _ => by simp
  | cons v l ih =>
    intro acc hpos hfit
    simp only [List.map_cons, List.sum_cons] at hfit
    rw [List.foldlM_cons, addVotingPower,
      moveAssert_of_true (decide_eq_true (hpos v List.mem_cons_self)), Except.ok_bind,
      arith_checkedAdd (by omega), Except.ok_bind,
      ih (fun x hx => hpos x (List.mem_cons_of_mem _ hx)) (by omega)]
    simp only [List.map_cons, List.sum_cons, Nat.add_assoc]

theorem checkInvariants_eq_ok {v : List Validator} (hpos : ∀ x ∈ v, 0 < x.votingPower)
    (hsum : (v.map Validator.votingPower).sum = totalVotingPower)
    (hord : v.Pairwise PowerOrdered) : checkInvariants v = .ok () := by
  unfold checkInvariants
  rw [foldlM_addVotingPower hpos (by rw [hsum]; decide), Except.ok_bind, Nat.zero_add, hsum,
    moveAssert_of_true (decide_eq_true rfl), Except.ok_bind]
  exact checkPairs_eq_ok.2 hord

end Check

/-! ### Setting the voting power -/

section Set

variable {validators : List Validator} {totalStake threshold : Nat}

theorem map_eq_of_forall₂ {α β : Type} {R : α → α → Prop} {f : α → β} {l l' : List α}
    (h : List.Forall₂ R l l') (hf : ∀ a b, R a b → f a = f b) : l.map f = l'.map f := by
  induction h with
  | nil => rfl
  | cons hab _ ih => rw [List.map_cons, List.map_cons, hf _ _ hab, ih]

theorem exists_of_forall₂_of_mem {α β : Type} {R : α → β → Prop} {l : List α} {l' : List β}
    (h : List.Forall₂ R l l') {b : β} (hb : b ∈ l') : ∃ a ∈ l, R a b := by
  induction h with
  | nil => exact absurd hb List.not_mem_nil
  | cons hab _ ih =>
    rcases List.mem_cons.1 hb with rfl | hb
    · exact ⟨_, List.mem_cons_self, hab⟩
    · obtain ⟨a, ha, hr⟩ := ih hb
      exact ⟨a, List.mem_cons_of_mem _ ha, hr⟩

/-- A larger stake never gets a smaller capped share. -/
theorem rawInfo_votingPower_le {p q : Validator × Nat} (h : q.1.totalStake ≤ p.1.totalStake) :
    (rawInfo threshold totalStake q).votingPower ≤ (rawInfo threshold totalStake p).votingPower := by
  have := Nat.div_le_div_right (c := totalStake) (Nat.mul_le_mul_right totalVotingPower h)
  simp only [rawInfo]
  omega

/-- With every power within the threshold, the room and the powers add up to the threshold
for each entry. -/
theorem room_add_powerSum {l : List VotingPowerInfoV2} (h : ∀ y ∈ l, y.votingPower ≤ threshold) :
    (l.map fun y => threshold - y.votingPower).sum + powerSum l = l.length * threshold := by
  induction l with
  | nil => simp
  | cons y l ih =>
    have hy := h y List.mem_cons_self
    have := ih fun z hz => h z (List.mem_cons_of_mem _ hz)
    simp only [List.map_cons, List.sum_cons, powerSum_cons, List.length_cons, Nat.succ_mul]
    omega

/-- The threshold of `set_voting_power` leaves room for all of `TOTAL_VOTING_POWER`: at the
cap there is one validator or more, and otherwise each may reach the average. -/
theorem totalVotingPower_le_mul_threshold {n : Nat} (hn : 0 < n) :
    totalVotingPower ≤ n * min totalVotingPower (max maxVotingPower (ceilDiv totalVotingPower n)) := by
  have hcover := le_mul_ceilDiv (x := totalVotingPower) hn
  rcases Nat.le_total totalVotingPower (max maxVotingPower (ceilDiv totalVotingPower n)) with h | h
  · rw [Nat.min_eq_left h]
    exact Nat.le_mul_of_pos_left _ hn
  · rw [Nat.min_eq_right h]
    exact Nat.le_trans hcover (Nat.mul_le_mul_left _ (Nat.le_max_right _ _))

/-- The sorted capped shares can take the power left over: they are within the threshold and,
the share growing with the stake, non-increasing along the list, and the threshold leaves
room for the whole total. -/
theorem adjustable_of_init (hT : threshold ≤ totalVotingPower)
    (hcap : totalVotingPower ≤ validators.length * threshold) {infoList : List VotingPowerInfoV2}
    (hperm : infoList.Perm (validators.zipIdx.map (rawInfo threshold totalStake)))
    (hsorted : SortedByStake infoList)
    (hle : powerSum (validators.zipIdx.map (rawInfo threshold totalStake)) ≤ totalVotingPower) :
    Adjustable threshold infoList
      (totalVotingPower - powerSum (validators.zipIdx.map (rawInfo threshold totalStake))) := by
  have hmem : ∀ e ∈ infoList, ∃ p ∈ validators.zipIdx, rawInfo threshold totalStake p = e :=
    fun e he => List.mem_map.1 (hperm.subset he)
  have hvp : ∀ y ∈ infoList, y.votingPower ≤ threshold := fun y hy => by
    obtain ⟨p, _, rfl⟩ := hmem y hy
    exact Nat.min_le_right _ _
  have hlen : infoList.length = validators.length := by simp [hperm.length_eq]
  have hroom := room_add_powerSum hvp
  rw [hlen, powerSum_eq_of_perm hperm] at hroom
  refine ⟨hvp, ?_, by omega, by unfold totalVotingPower at hT ⊢; omega⟩
  refine hsorted.imp_of_mem fun ha hb hab => ?_
  obtain ⟨p, _, rfl⟩ := hmem _ ha
  obtain ⟨q, _, rfl⟩ := hmem _ hb
  exact rawInfo_votingPower_le hab

/-- The entries that come out of the loop name each validator once. -/
theorem indices_perm_of_raised {infoList out : List VotingPowerInfoV2}
    (hperm : infoList.Perm (validators.zipIdx.map (rawInfo threshold totalStake)))
    (hF : List.Forall₂ (Raised threshold) infoList out) :
    (out.map VotingPowerInfoV2.validatorIndex).Perm (List.range validators.length) := by
  rw [← map_eq_of_forall₂ hF fun _ _ h => h.1.symm]
  have hidx := hperm.map VotingPowerInfoV2.validatorIndex
  rw [List.map_map] at hidx
  refine hidx.trans (List.Perm.of_eq ?_)
  rw [show VotingPowerInfoV2.validatorIndex ∘ rawInfo threshold totalStake = Prod.snd from rfl,
    List.zipIdx_map_snd, List.range_eq_range']

/-- Each entry that comes out of the loop carries the stake of the validator it names. -/
theorem stake_of_raised {infoList out : List VotingPowerInfoV2}
    (hperm : infoList.Perm (validators.zipIdx.map (rawInfo threshold totalStake)))
    (hF : List.Forall₂ (Raised threshold) infoList out) :
    ∀ e ∈ out, validators[e.validatorIndex]?.map Validator.totalStake = some e.stake := by
  intro e he
  obtain ⟨a, ha, hr⟩ := exists_of_forall₂_of_mem hF he
  obtain ⟨p, hp, rfl⟩ := List.mem_map.1 (hperm.subset ha)
  rw [hr.1, hr.2.1]
  show validators[p.2]?.map Validator.totalStake = some p.1.totalStake
  rw [List.mem_zipIdx_iff_getElem?.1 hp]
  rfl

/-- `set_voting_power` succeeds when each of its steps does. -/
theorem setVotingPower_eq_ok {infoList out : List VotingPowerInfoV2} {R : Nat}
    {result : List Validator} (hn : 0 < validators.length)
    (hT : threshold = min totalVotingPower (max maxVotingPower
      (ceilDiv totalVotingPower validators.length)))
    (hinit : initVotingPowerInfo validators threshold totalStake = .ok (infoList, R))
    (hadj : adjustVotingPower infoList threshold R = .ok out)
    (hupd : updateVotingPower validators out = .ok result)
    (hcheck : checkInvariants result = .ok ()) :
    setVotingPower validators totalStake = .ok result := by
  have hround : divideAndRoundUp totalVotingPower validators.length =
      .ok (ceilDiv totalVotingPower validators.length) :=
    divideAndRoundUp_eq hn (by decide)
  simp only [setVotingPower, hround, Except.ok_bind, ← hT, hinit, hadj, hupd, hcheck]
  rfl

theorem setVotingPower_spec (validators : List Validator) (totalStake : Nat)
    (hne : validators ≠ [])
    (hsum : (validators.map Validator.totalStake).sum = totalStake)
    (hraw : ∀ v ∈ validators, 1 ≤ v.totalStake * totalVotingPower / totalStake) :
    ∃ result, setVotingPower validators totalStake = .ok result ∧
      result.map Validator.totalStake = validators.map Validator.totalStake ∧
      (result.map Validator.votingPower).sum = totalVotingPower ∧
      (∀ v ∈ result, 1 ≤ v.votingPower ∧ v.votingPower ≤
        min totalVotingPower (max maxVotingPower (ceilDiv totalVotingPower validators.length))) ∧
      ∀ i j (hi : i < result.length) (hj : j < result.length),
        result[j].totalStake < result[i].totalStake →
          result[j].votingPower ≤ result[i].votingPower := by
  have hn : 0 < validators.length := List.length_pos_of_ne_nil hne
  have hS : 0 < totalStake := by
    obtain ⟨v, hv⟩ := List.exists_mem_of_ne_nil validators hne
    have h1 := hraw v hv
    refine Nat.pos_of_ne_zero fun h0 => ?_
    rw [h0, Nat.div_zero] at h1
    exact absurd h1 (by decide)
  obtain ⟨T, hT⟩ : ∃ T, T = min totalVotingPower
      (max maxVotingPower (ceilDiv totalVotingPower validators.length)) := ⟨_, rfl⟩
  have hT1 : 1 ≤ T := by
    rw [hT]
    unfold totalVotingPower maxVotingPower
    omega
  have hTle : T ≤ totalVotingPower := hT ▸ Nat.min_le_left _ _
  -- the capped shares, sorted by stake, and what they leave over
  obtain ⟨infoList, hinit, hperm, hsorted⟩ :=
    @initVotingPowerInfo_spec T totalStake hS validators hsum
  have hle := @powerSum_rawInfo_le T totalStake hS validators hsum
  have hA := adjustable_of_init hTle (hT ▸ totalVotingPower_le_mul_threshold hn) hperm
    hsorted hle
  -- handing out the rest raises every share, up to the threshold, and spends it all
  obtain ⟨out, hadj, hF, hpow, hanti⟩ := adjustVotingPower_spec hA
  have hpow' : powerSum out = totalVotingPower := by
    rw [hpow, powerSum_eq_of_perm hperm]
    omega
  have hbounds : ∀ e ∈ out, 1 ≤ e.votingPower ∧ e.votingPower ≤ T := by
    intro e he
    obtain ⟨a, ha, hr⟩ := exists_of_forall₂_of_mem hF he
    obtain ⟨p, hp, rfl⟩ := List.mem_map.1 (hperm.subset ha)
    have hraw' := hraw p.1 (List.fst_mem_of_mem_zipIdx hp)
    have hmin : 1 ≤ (rawInfo T totalStake p).votingPower := Nat.le_min.2 ⟨hraw', hT1⟩
    exact ⟨Nat.le_trans hmin hr.2.2.1, hr.2.2.2⟩
  -- the stakes come through unchanged, so the entries are still sorted by stake
  have hsortOut : out.Pairwise fun a b => b.stake ≤ a.stake := by
    have hmap : (infoList.map VotingPowerInfoV2.stake).Pairwise fun a b => b ≤ a :=
      List.pairwise_map.2 hsorted
    rw [map_eq_of_forall₂ hF fun _ _ h => h.2.1.symm] at hmap
    exact List.pairwise_map.1 hmap
  have hord : (out.map fun e => (⟨e.stake, e.votingPower⟩ : Validator)).Pairwise PowerOrdered :=
    List.pairwise_map.2 ((hsortOut.and hanti).imp fun h =>
      ⟨fun _ => h.2, fun hlt => absurd h.1 (Nat.not_le.2 hlt)⟩)
  obtain ⟨result, hupd, hstakes, hsumr, hfrom⟩ :=
    updateVotingPower_spec validators out (indices_perm_of_raised hperm hF)
      (stake_of_raised hperm hF)
  have hmemr : ∀ v ∈ result, v ∈ out.map fun e => (⟨e.stake, e.votingPower⟩ : Validator) := by
    intro v hv
    obtain ⟨e, he, rfl⟩ := hfrom v hv
    exact List.mem_map_of_mem he
  have hordr : ∀ a ∈ result, ∀ b ∈ result, PowerOrdered a b := fun a ha b hb =>
    powerOrdered_of_mem hord (hmemr a ha) (hmemr b hb)
  have hboundsr : ∀ v ∈ result, 1 ≤ v.votingPower ∧ v.votingPower ≤ T := by
    intro v hv
    obtain ⟨e, he, rfl⟩ := hfrom v hv
    exact hbounds e he
  have hcheck : checkInvariants result = .ok () :=
    checkInvariants_eq_ok (fun v hv => (hboundsr v hv).1) (hsumr.trans hpow')
      (List.pairwise_of_forall_mem_list hordr)
  refine ⟨result, setVotingPower_eq_ok hn hT hinit hadj hupd hcheck, hstakes, hsumr.trans hpow',
    hT ▸ hboundsr, fun i j hi hj => (hordr _ (List.getElem_mem hi) _ (List.getElem_mem hj)).1⟩

/-- Three validators whose stakes differ by one unit: the conditions hold, and the powers add
up to `TOTAL_VOTING_POWER`. -/
theorem setVotingPower_spec_nearlyEven :
    ([⟨10000, 0⟩, ⟨10001, 0⟩, ⟨10000, 0⟩] : List Validator) ≠ [] ∧
      (([⟨10000, 0⟩, ⟨10001, 0⟩, ⟨10000, 0⟩] : List Validator).map Validator.totalStake).sum =
        30001 ∧
      (∀ v ∈ ([⟨10000, 0⟩, ⟨10001, 0⟩, ⟨10000, 0⟩] : List Validator),
        1 ≤ v.totalStake * totalVotingPower / 30001) ∧
      ∃ result, setVotingPower [⟨10000, 0⟩, ⟨10001, 0⟩, ⟨10000, 0⟩] 30001 = .ok result ∧
        (result.map Validator.votingPower).sum = totalVotingPower := by
  have hne : ([⟨10000, 0⟩, ⟨10001, 0⟩, ⟨10000, 0⟩] : List Validator) ≠ [] := by decide
  have hsum : (([⟨10000, 0⟩, ⟨10001, 0⟩, ⟨10000, 0⟩] : List Validator).map
      Validator.totalStake).sum = 30001 := by decide
  have hraw : ∀ v ∈ ([⟨10000, 0⟩, ⟨10001, 0⟩, ⟨10000, 0⟩] : List Validator),
      1 ≤ v.totalStake * totalVotingPower / 30001 := by decide
  obtain ⟨result, hrun, _, hpow, _⟩ := setVotingPower_spec _ _ hne hsum hraw
  exact ⟨hne, hsum, hraw, result, hrun, hpow⟩

/- Two vectors of the Move tests: stakes that differ by one unit keep their order, and of
eleven validators with stakes 1 to 11 the seven largest end at `MAX_VOTING_POWER`. -/
example : setVotingPower [⟨10000, 0⟩, ⟨10001, 0⟩, ⟨10000, 0⟩] 30001 =
    .ok [⟨10000, 3333⟩, ⟨10001, 3334⟩, ⟨10000, 3333⟩] := by
  decide

example : (setVotingPower ((List.range 11).map fun i => ⟨i + 1, 0⟩) 66).map
    (List.map Validator.votingPower) =
      .ok [522, 674, 826, 978, 1000, 1000, 1000, 1000, 1000, 1000, 1000] := by
  decide

end Set

end VotingPower

end Rtd
