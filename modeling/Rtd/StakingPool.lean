import Rtd.Except
import Mathlib

/-!
The staking pool of a validator (`rtd-system/sources/staking_pool.move`).

Amounts are `u64`. Move aborts a transaction on an arithmetic overflow or
underflow, on a failed `assert!`, on a `balance::split` of more than the balance
and on a dynamic field added twice or removed while absent; each of these is an
`Abort`, and a failed call leaves no state. `mul_div!` computes in `u128`, where
the product of two `u64` values cannot overflow, and aborts when the quotient
does not fit back in a `u64`.

The pool's `UID`, its `Bag` and the `UID`s of the stake objects are left out:
the model keeps the pool's `ID` for the `EWrongPool` checks and the two dynamic
fields the module reads.
-/

set_option autoImplicit false

namespace Rtd

namespace StakingPool

/-! ### Aborts and `u64` arithmetic -/

/-- Why a transaction aborts, by the module that raises it and its error code. -/
inductive Abort where
  /-- An integer overflow, an underflow or a division by zero. -/
  | arithmetic
  | stakingPool (code : Nat)
  | balance (code : Nat)
  | dynamicField (code : Nat)
  | option (code : Nat)
  deriving DecidableEq, Repr

def eWrongPool : Nat := 1
def eInvariantFailure : Nat := 20
def eDelegationToInactivePool : Nat := 10
def eDeactivationOfInactivePool : Nat := 11
def ePoolAlreadyActive : Nat := 14
def ePoolPreactiveOrInactive : Nat := 15
def eActivationOfInactivePool : Nat := 16
def eDelegationOfZeroRtd : Nat := 17
def eCannotMintFungibleStakedRtdYet : Nat := 19
def eTokenBalancesDoNotMatchExchangeRate : Nat := 9

/-- `balance::ENotEnough`. -/
def eNotEnough : Nat := 2

/-- `option::EOPTION_NOT_SET`. -/
def eOptionNotSet : Nat := 0x40001

/-- `dynamic_field::EFieldAlreadyExists` and `EFieldDoesNotExist`. -/
def eFieldAlreadyExists : Nat := 0
def eFieldDoesNotExist : Nat := 1

def u64Bound : Nat := 2 ^ 64

def moveAssert (b : Bool) (e : Abort) : Except Abort Unit :=
  if b then .ok () else .error e

/-- `a + b` on `u64`. -/
def add (a b : Nat) : Except Abort Nat :=
  if a + b < u64Bound then .ok (a + b) else .error .arithmetic

/-- `a - b` on `u64`. -/
def sub (a b : Nat) : Except Abort Nat :=
  if b ≤ a then .ok (a - b) else .error .arithmetic

/-- `mul_div!(a, b, c)`: `((a as u128) * (b as u128) / (c as u128)) as u64`. -/
def mulDiv (a b c : Nat) : Except Abort Nat :=
  if c = 0 then .error .arithmetic
  else if a * b / c < u64Bound then .ok (a * b / c) else .error .arithmetic

/-- `balance::split`: the balance left. -/
def split (balance value : Nat) : Except Abort Nat :=
  if balance ≥ value then .ok (balance - value) else .error (.balance eNotEnough)

@[simp] theorem moveAssert_eq_ok {b : Bool} {e : Abort} {u : Unit} :
    moveAssert b e = .ok u ↔ b = true := by
  cases b <;> simp [moveAssert]

theorem add_eq_ok {a b r : Nat} : add a b = .ok r ↔ a + b < u64Bound ∧ r = a + b := by
  unfold add
  split <;> simp_all [eq_comm]

theorem mulDiv_eq_ok {a b c r : Nat} :
    mulDiv a b c = .ok r ↔ c ≠ 0 ∧ a * b / c < u64Bound ∧ r = a * b / c := by
  unfold mulDiv
  split
  · simp_all
  · split <;> simp_all [eq_comm]

theorem sub_eq_ok {a b r : Nat} : sub a b = .ok r ↔ b ≤ a ∧ r = a - b := by
  unfold sub
  split <;> simp_all [eq_comm]

theorem split_eq_ok {balance value r : Nat} :
    split balance value = .ok r ↔ value ≤ balance ∧ r = balance - value := by
  unfold split
  split <;> simp_all [eq_comm]

theorem split_eq_error {balance value : Nat} {e : Abort} :
    split balance value = .error e ↔ balance < value ∧ e = .balance eNotEnough := by
  unfold split
  split
  · simp_all
  · simp only [Except.error.injEq]
    constructor
    · intro h
      exact ⟨by omega, h.symm⟩
    · intro h
      exact h.2.symm

/-! ### The pool -/

structure PoolTokenExchangeRate where
  rtdAmount : Nat
  poolTokenAmount : Nat
  deriving DecidableEq, Repr

/-- The dynamic field under `FungibleStakedRtdDataKey`. -/
structure FungibleStakedRtdData where
  totalSupply : Nat
  principal : Nat
  deriving DecidableEq, Repr

structure StakedRtd where
  poolId : Nat
  stakeActivationEpoch : Nat
  principal : Nat
  deriving DecidableEq, Repr

structure FungibleStakedRtd where
  poolId : Nat
  value : Nat
  deriving DecidableEq, Repr

end StakingPool

open StakingPool in
/-- `StakingPool`. The exchange-rate table is a list of entries keyed by epoch,
newest first; `fungibleStakedRtdData` and `underflowRtdBalance` are the dynamic
fields of `extra_fields`. -/
structure StakingPool where
  id : Nat
  activationEpoch : Option Nat
  deactivationEpoch : Option Nat
  rtdBalance : Nat
  rewardsPool : Nat
  poolTokenBalance : Nat
  exchangeRates : List (Nat × PoolTokenExchangeRate)
  pendingStake : Nat
  pendingTotalRtdWithdraw : Nat
  pendingPoolTokenWithdraw : Nat
  fungibleStakedRtdData : Option FungibleStakedRtdData
  underflowRtdBalance : Option Nat
  deriving DecidableEq, Repr

namespace StakingPool

/-- `staking_pool::new`. -/
def new (id : Nat) : StakingPool := ⟨id, none, none, 0, 0, 0, [], 0, 0, 0, none, none⟩

variable (pool : StakingPool)

def isPreactive : Bool := pool.activationEpoch.isNone

def isInactive : Bool := pool.deactivationEpoch.isSome

def isPreactiveAtEpoch (epoch : Nat) : Bool :=
  match pool.activationEpoch with
  | none => true
  | some activationEpoch => decide (activationEpoch > epoch)

def initialExchangeRate : PoolTokenExchangeRate := ⟨0, 0⟩

/-- `table::add`. -/
def addExchangeRate (epoch : Nat) (rate : PoolTokenExchangeRate) : Except Abort StakingPool :=
  if (pool.exchangeRates.lookup epoch).isSome then .error (.dynamicField eFieldAlreadyExists)
  else .ok { pool with exchangeRates := (epoch, rate) :: pool.exchangeRates }

/-- The loop of `pool_token_exchange_rate_at_epoch`: from `epoch` down to the
activation epoch, the first epoch with an entry. Below epoch 0 the decrement
underflows. -/
def findExchangeRate (activationEpoch : Nat) : Nat → Except Abort PoolTokenExchangeRate
  | 0 =>
    if 0 ≥ activationEpoch then
      match pool.exchangeRates.lookup 0 with
      | some rate => .ok rate
      | none => .error .arithmetic
    else .ok initialExchangeRate
  | epoch + 1 =>
    if epoch + 1 ≥ activationEpoch then
      match pool.exchangeRates.lookup (epoch + 1) with
      | some rate => .ok rate
      | none => findExchangeRate activationEpoch epoch
    else .ok initialExchangeRate

def poolTokenExchangeRateAtEpoch (epoch : Nat) : Except Abort PoolTokenExchangeRate :=
  -- a pre-active pool, or one activated later, has the initial rate
  if pool.isPreactiveAtEpoch epoch then .ok initialExchangeRate
  else
    let clampedEpoch := pool.deactivationEpoch.getD epoch
    match pool.activationEpoch with
    | some activationEpoch => pool.findExchangeRate activationEpoch (min clampedEpoch epoch)
    | none => .error (.option eOptionNotSet)

def getRtdAmount (exchangeRate : PoolTokenExchangeRate) (tokenAmount : Nat) : Except Abort Nat :=
  -- no stake in the pool: the amounts are taken one to one
  if exchangeRate.rtdAmount = 0 ∨ exchangeRate.poolTokenAmount = 0 then .ok tokenAmount
  else mulDiv exchangeRate.rtdAmount tokenAmount exchangeRate.poolTokenAmount

def getTokenAmount (exchangeRate : PoolTokenExchangeRate) (rtdAmount : Nat) : Except Abort Nat :=
  if exchangeRate.rtdAmount = 0 ∨ exchangeRate.poolTokenAmount = 0 then .ok rtdAmount
  else mulDiv exchangeRate.poolTokenAmount rtdAmount exchangeRate.rtdAmount

/-! ### Stake requests -/

def requestAddStake (stake stakeActivationEpoch : Nat) :
    Except Abort (StakingPool × StakedRtd) := do
  let rtdAmount := stake
  moveAssert (!pool.isInactive) (.stakingPool eDelegationToInactivePool)
  moveAssert (decide (rtdAmount > 0)) (.stakingPool eDelegationOfZeroRtd)
  let pendingStake ← add pool.pendingStake rtdAmount
  pure ({ pool with pendingStake }, ⟨pool.id, stakeActivationEpoch, stake⟩)

/-- `withdraw_from_principal`: the pool tokens of the stake at its activation
epoch's rate, and its principal. -/
def withdrawFromPrincipal (stakedRtd : StakedRtd) : Except Abort (Nat × Nat) := do
  moveAssert (decide (stakedRtd.poolId = pool.id)) (.stakingPool eWrongPool)
  let exchangeRateAtStakingEpoch ← pool.poolTokenExchangeRateAtEpoch stakedRtd.stakeActivationEpoch
  let principalWithdraw := stakedRtd.principal
  let poolTokenWithdrawAmount ← getTokenAmount exchangeRateAtStakingEpoch principalWithdraw
  pure (poolTokenWithdrawAmount, principalWithdraw)

/-- `withdraw_rewards`: the rewards part of a withdrawal at the current rate,
capped by the rewards pool. -/
def withdrawRewards (principalWithdrawAmount poolTokenWithdrawAmount epoch : Nat) :
    Except Abort (StakingPool × Nat) := do
  let exchangeRate ← pool.poolTokenExchangeRateAtEpoch epoch
  let totalRtdWithdrawAmount ← getRtdAmount exchangeRate poolTokenWithdrawAmount
  let rewardWithdrawAmount :=
    if totalRtdWithdrawAmount ≥ principalWithdrawAmount then
      totalRtdWithdrawAmount - principalWithdrawAmount
    else 0
  -- the cap the source adds for a withdrawal of everything in the pool
  let rewardWithdrawAmount := min rewardWithdrawAmount pool.rewardsPool
  let rewardsPool ← split pool.rewardsPool rewardWithdrawAmount
  pure ({ pool with rewardsPool }, rewardWithdrawAmount)

/-- `process_pending_stake_withdraw`. A withdrawal above the balance leaves the
difference in the `UnderflowRtdBalance` field. -/
def processPendingStakeWithdraw : Except Abort StakingPool := do
  let (rtdBalance, underflowRtdBalance) ←
    if pool.rtdBalance ≥ pool.pendingTotalRtdWithdraw then
      pure (pool.rtdBalance - pool.pendingTotalRtdWithdraw, pool.underflowRtdBalance)
    else
      let diff := pool.pendingTotalRtdWithdraw - pool.rtdBalance
      if pool.underflowRtdBalance.isSome then throw (.dynamicField eFieldAlreadyExists)
      else pure (0, some diff)
  let poolTokenBalance :=
    if pool.poolTokenBalance ≥ pool.pendingPoolTokenWithdraw then
      pool.poolTokenBalance - pool.pendingPoolTokenWithdraw
    else 0
  pure { pool with
    rtdBalance := rtdBalance
    underflowRtdBalance := underflowRtdBalance
    poolTokenBalance := poolTokenBalance
    pendingTotalRtdWithdraw := 0
    pendingPoolTokenWithdraw := 0 }

def requestWithdrawStake (stakedRtd : StakedRtd) (epoch : Nat) :
    Except Abort (StakingPool × Nat) := do
  -- a stake not active yet in an active pool is taken back from the pending stake
  if stakedRtd.stakeActivationEpoch > epoch ∧ !pool.isPreactive then
    let principal := stakedRtd.principal
    let pendingStake ← sub pool.pendingStake principal
    return ({ pool with pendingStake }, principal)
  let (poolTokenWithdrawAmount, principalWithdrawAmount) ← pool.withdrawFromPrincipal stakedRtd
  let (pool, rewardsWithdraw) ←
    pool.withdrawRewards principalWithdrawAmount poolTokenWithdrawAmount epoch
  let totalRtdWithdrawAmount ← add principalWithdrawAmount rewardsWithdraw
  let pendingTotalRtdWithdraw ← add pool.pendingTotalRtdWithdraw totalRtdWithdrawAmount
  let pendingPoolTokenWithdraw ← add pool.pendingPoolTokenWithdraw poolTokenWithdrawAmount
  let pool := { pool with pendingTotalRtdWithdraw, pendingPoolTokenWithdraw }
  let pool ← if pool.isInactive || pool.isPreactive then pool.processPendingStakeWithdraw
    else pure pool
  let out ← add principalWithdrawAmount rewardsWithdraw
  pure (pool, out)

/-- `calculate_fungible_staked_rtd_withdraw_amount`: the principal and rewards
parts of redeeming `fungibleStakedRtdValue` tokens of the fungible supply. -/
def calculateFungibleStakedRtdWithdrawAmount (latestExchangeRate : PoolTokenExchangeRate)
    (fungibleStakedRtdValue fungibleStakedRtdDataPrincipalAmount
      fungibleStakedRtdDataTotalSupply : Nat) : Except Abort (Nat × Nat) := do
  let totalRtdAmount ← getRtdAmount latestExchangeRate fungibleStakedRtdDataTotalSupply
  let fungibleStakedRtdDataPrincipalAmount := min fungibleStakedRtdDataPrincipalAmount totalRtdAmount
  let totalRewards ← sub totalRtdAmount fungibleStakedRtdDataPrincipalAmount
  let principalWithdrawAmount ← mulDiv fungibleStakedRtdValue fungibleStakedRtdDataPrincipalAmount
    fungibleStakedRtdDataTotalSupply
  let rewardsWithdrawAmount ← mulDiv fungibleStakedRtdValue totalRewards
    fungibleStakedRtdDataTotalSupply
  let expectedRtdAmount ← getRtdAmount latestExchangeRate fungibleStakedRtdValue
  let withdrawn ← add principalWithdrawAmount rewardsWithdrawAmount
  moveAssert (decide (withdrawn ≤ expectedRtdAmount)) (.stakingPool eInvariantFailure)
  pure (principalWithdrawAmount, rewardsWithdrawAmount)

def redeemFungibleStakedRtd (fungibleStakedRtd : FungibleStakedRtd) (epoch : Nat) :
    Except Abort (StakingPool × Nat) := do
  moveAssert (decide (fungibleStakedRtd.poolId = pool.id)) (.stakingPool eWrongPool)
  let latestExchangeRate ← pool.poolTokenExchangeRateAtEpoch epoch
  let fungibleStakedRtdData ← match pool.fungibleStakedRtdData with
    | some data => pure data
    | none => throw (.dynamicField eFieldDoesNotExist)
  let (principalAmount, rewardsAmount) ← calculateFungibleStakedRtdWithdrawAmount
    latestExchangeRate fungibleStakedRtd.value fungibleStakedRtdData.principal
    fungibleStakedRtdData.totalSupply
  let totalSupply ← sub fungibleStakedRtdData.totalSupply fungibleStakedRtd.value
  let principal ← split fungibleStakedRtdData.principal principalAmount
  -- unlike `withdraw_rewards`, the rewards part is not capped by the rewards pool
  let rewardsPool ← split pool.rewardsPool rewardsAmount
  let rtdOut ← add principalAmount rewardsAmount
  let pendingTotalRtdWithdraw ← add pool.pendingTotalRtdWithdraw rtdOut
  let pendingPoolTokenWithdraw ← add pool.pendingPoolTokenWithdraw fungibleStakedRtd.value
  let pool := { pool with
    fungibleStakedRtdData := some ⟨totalSupply, principal⟩
    rewardsPool := rewardsPool
    pendingTotalRtdWithdraw := pendingTotalRtdWithdraw
    pendingPoolTokenWithdraw := pendingPoolTokenWithdraw }
  pure (pool, rtdOut)

def convertToFungibleStakedRtd (stakedRtd : StakedRtd) (epoch : Nat) :
    Except Abort (StakingPool × FungibleStakedRtd) := do
  moveAssert (decide (stakedRtd.poolId = pool.id)) (.stakingPool eWrongPool)
  moveAssert (decide (epoch ≥ stakedRtd.stakeActivationEpoch))
    (.stakingPool eCannotMintFungibleStakedRtdYet)
  moveAssert (!pool.isPreactive && !pool.isInactive) (.stakingPool ePoolPreactiveOrInactive)
  let exchangeRateAtStakingEpoch ← pool.poolTokenExchangeRateAtEpoch stakedRtd.stakeActivationEpoch
  let poolTokenAmount ← getTokenAmount exchangeRateAtStakingEpoch stakedRtd.principal
  let fungibleStakedRtdData ← match pool.fungibleStakedRtdData with
    | none => pure ⟨poolTokenAmount, stakedRtd.principal⟩
    | some data => do
      let totalSupply ← add data.totalSupply poolTokenAmount
      let principal ← add data.principal stakedRtd.principal
      pure ⟨totalSupply, principal⟩
  pure ({ pool with fungibleStakedRtdData := some fungibleStakedRtdData },
    ⟨stakedRtd.poolId, poolTokenAmount⟩)

/-! ### Epoch boundaries -/

def depositRewards (rewards : Nat) : Except Abort StakingPool := do
  let rtdBalance ← add pool.rtdBalance rewards
  let rewardsPool ← add pool.rewardsPool rewards
  pure { pool with rtdBalance, rewardsPool }

/-- `process_pending_stake`: the pending stake joins at the rate after the
withdrawals, less what a withdrawal underflowed. -/
def processPendingStake : Except Abort StakingPool := do
  let latestExchangeRate : PoolTokenExchangeRate := ⟨pool.rtdBalance, pool.poolTokenBalance⟩
  let rtdDiff := pool.underflowRtdBalance.getD 0
  let balance ← add pool.rtdBalance pool.pendingStake
  let rtdBalance ← sub balance rtdDiff
  let poolTokenBalance ← getTokenAmount latestExchangeRate rtdBalance
  pure { pool with
    rtdBalance := rtdBalance
    poolTokenBalance := poolTokenBalance
    pendingStake := 0
    underflowRtdBalance := none }

def checkBalanceInvariants (epoch : Nat) : Except Abort Unit := do
  let exchangeRate ← pool.poolTokenExchangeRateAtEpoch epoch
  let expected ← getTokenAmount exchangeRate pool.rtdBalance
  moveAssert (decide (expected = pool.poolTokenBalance))
    (.stakingPool eTokenBalancesDoNotMatchExchangeRate)

def processPendingStakesAndWithdraws (epoch : Nat) : Except Abort StakingPool := do
  let newEpoch ← add epoch 1
  let pool ← pool.processPendingStakeWithdraw
  let pool ← pool.processPendingStake
  let pool ← pool.addExchangeRate newEpoch ⟨pool.rtdBalance, pool.poolTokenBalance⟩
  pool.checkBalanceInvariants newEpoch
  pure pool

/-! ### Activation -/

def activateStakingPool (activationEpoch : Nat) : Except Abort StakingPool := do
  let pool ← pool.addExchangeRate activationEpoch initialExchangeRate
  moveAssert pool.isPreactive (.stakingPool ePoolAlreadyActive)
  moveAssert (!pool.isInactive) (.stakingPool eActivationOfInactivePool)
  pure { pool with activationEpoch := some activationEpoch }

def deactivateStakingPool (deactivationEpoch : Nat) : Except Abort StakingPool := do
  moveAssert (!pool.isInactive) (.stakingPool eDeactivationOfInactivePool)
  pure { pool with deactivationEpoch := some deactivationEpoch }

/-! ### The rewards part of a withdrawal -/

/-- `withdraw_rewards` takes at most the rewards pool, and takes it from there. -/
theorem withdrawRewards_le_rewardsPool {principalWithdrawAmount poolTokenWithdrawAmount epoch : Nat}
    {pool' : StakingPool} {reward : Nat}
    (h : pool.withdrawRewards principalWithdrawAmount poolTokenWithdrawAmount epoch =
      .ok (pool', reward)) :
    reward ≤ pool.rewardsPool ∧ pool' = { pool with rewardsPool := pool.rewardsPool - reward } := by
  unfold withdrawRewards at h
  obtain ⟨rate, -, h⟩ := Except.bind_eq_ok.1 h
  obtain ⟨total, -, h⟩ := Except.bind_eq_ok.1 h
  obtain ⟨rewardsPool, hsplit, h⟩ := Except.bind_eq_ok.1 h
  simp only [Except.pure_eq_ok, Prod.mk.injEq] at h
  obtain ⟨rfl, rfl⟩ := h
  obtain ⟨hle, rfl⟩ := split_eq_ok.1 hsplit
  exact ⟨hle, rfl⟩

/-- `redeem_fungible_staked_rtd` aborts in `balance::split` whenever the rewards
part it computes exceeds the rewards pool: nothing caps it, as `withdraw_rewards`
caps its own. -/
theorem redeemFungibleStakedRtd_abort_of_lt {fungibleStakedRtd : FungibleStakedRtd} {epoch : Nat}
    {rate : PoolTokenExchangeRate} {data : FungibleStakedRtdData} {principalAmount rewardsAmount : Nat}
    (hid : fungibleStakedRtd.poolId = pool.id)
    (hrate : pool.poolTokenExchangeRateAtEpoch epoch = .ok rate)
    (hdata : pool.fungibleStakedRtdData = some data)
    (hcalc : calculateFungibleStakedRtdWithdrawAmount rate fungibleStakedRtd.value data.principal
      data.totalSupply = .ok (principalAmount, rewardsAmount))
    (hsupply : fungibleStakedRtd.value ≤ data.totalSupply) (hprincipal : principalAmount ≤ data.principal)
    (hrewards : pool.rewardsPool < rewardsAmount) :
    pool.redeemFungibleStakedRtd fungibleStakedRtd epoch = .error (.balance eNotEnough) := by
  simp [redeemFungibleStakedRtd, moveAssert, hid, hrate, hdata, hcalc, sub, hsupply, split,
    hprincipal, Nat.not_le.2 hrewards]

/-- A pool activated at epoch 0 whose only staker converts 100 RTD to fungible
stake, and a second staker's 1 RTD and 1 MIST joining with 10 RTD and 1 MIST of
rewards: the new pool tokens are rounded down, and the fungible stake is worth 1
MIST more rewards than the rewards pool holds. -/
def roundingScenario (convert : Bool) : Except Abort (StakingPool × StakedRtd × FungibleStakedRtd) := do
  let pool ← (new 0).activateStakingPool 0
  let (pool, stakeA) ← pool.requestAddStake 100000000000 1
  let pool ← pool.processPendingStakesAndWithdraws 0
  let (pool, fungibleA) ←
    if convert then pool.convertToFungibleStakedRtd stakeA 1 else pure (pool, ⟨0, 0⟩)
  let (pool, _) ← pool.requestAddStake 1000000001 2
  let pool ← pool.depositRewards 10000000001
  let pool ← pool.processPendingStakesAndWithdraws 1
  pure (pool, stakeA, fungibleA)

/-- In the rounding scenario the redemption of the whole fungible stake asks
10000000002 MIST of a rewards pool of 10000000001 and aborts, while withdrawing
the same stake unconverted is capped at the rewards pool and pays out. -/
theorem redeemFungibleStakedRtd_aborts_after_rounding :
    (do let (pool, _, fungibleA) ← roundingScenario true
        let rate ← pool.poolTokenExchangeRateAtEpoch 2
        let parts ← calculateFungibleStakedRtdWithdrawAmount rate fungibleA.value 100000000000
          100000000000
        pure (pool.rewardsPool, pool.fungibleStakedRtdData, parts)) =
      .ok (10000000001, some ⟨100000000000, 100000000000⟩, (100000000000, 10000000002)) ∧
    (do let (pool, _, fungibleA) ← roundingScenario true
        pool.redeemFungibleStakedRtd fungibleA 2) = .error (.balance eNotEnough) ∧
    (do let (pool, stakeA, _) ← roundingScenario false
        let (_, out) ← pool.requestWithdrawStake stakeA 2
        pure out) = .ok 110000000001 := by
  decide

/-! ### The balance check at the epoch boundary -/

/-- The pool's token balance is the one its own rate gives its balance. -/
def Balanced : Prop :=
  getTokenAmount ⟨pool.rtdBalance, pool.poolTokenBalance⟩ pool.rtdBalance = .ok pool.poolTokenBalance

theorem balanced_of_eq {r : Nat} (hr : r < u64Bound) : getTokenAmount ⟨r, r⟩ r = .ok r := by
  unfold getTokenAmount
  split
  · rfl
  · rw [mulDiv_eq_ok.2]
    rename_i h
    have hr0 : r ≠ 0 := fun h0 => h (.inl h0)
    exact ⟨hr0, by rw [Nat.mul_div_cancel _ (Nat.pos_of_ne_zero hr0)]; exact hr,
      (Nat.mul_div_cancel _ (Nat.pos_of_ne_zero hr0)).symm⟩

/-- Processing the withdrawals keeps the activation, the rates and the bounds, and
leaves an underflow recorded only with a balance of 0. -/
theorem processPendingStakeWithdraw_spec {pool' : StakingPool}
    (h : pool.processPendingStakeWithdraw = .ok pool') :
    pool'.activationEpoch = pool.activationEpoch ∧ pool'.deactivationEpoch = pool.deactivationEpoch ∧
      pool'.exchangeRates = pool.exchangeRates ∧ pool'.pendingStake = pool.pendingStake ∧
      pool'.rtdBalance ≤ pool.rtdBalance ∧
      (pool.underflowRtdBalance = none → pool'.underflowRtdBalance = none ∨ pool'.rtdBalance = 0) := by
  simp only [processPendingStakeWithdraw, bind, Except.bind, pure, Except.pure,
    Except.throw_eq_error] at h
  split at h
  · -- the balance covers the withdrawals
    cases h
    exact ⟨rfl, rfl, rfl, rfl, Nat.sub_le _ _, fun hund => .inl hund⟩
  · split at h
    · cases h
    · cases h
      exact ⟨rfl, rfl, rfl, rfl, Nat.zero_le _, fun _ => .inr rfl⟩

/-- Processing the pending stake at the rate after the withdrawals leaves a
balanced pool: the rate only scales the tokens with the balance, which does not
fall while no underflow is recorded. -/
theorem processPendingStake_balanced {pool' : StakingPool}
    (hund : pool.underflowRtdBalance = none ∨ pool.rtdBalance = 0)
    (h : pool.processPendingStake = .ok pool') :
    pool'.Balanced ∧ pool'.activationEpoch = pool.activationEpoch ∧
      pool'.deactivationEpoch = pool.deactivationEpoch ∧ pool'.exchangeRates = pool.exchangeRates := by
  unfold processPendingStake at h
  obtain ⟨balance, hbalance, h⟩ := Except.bind_eq_ok.1 h
  obtain ⟨rtdBalance, hrtd, h⟩ := Except.bind_eq_ok.1 h
  obtain ⟨tokens, htokens, h⟩ := Except.bind_eq_ok.1 h
  simp only [Except.pure_eq_ok] at h
  subst h
  obtain ⟨hlt, rfl⟩ := add_eq_ok.1 hbalance
  obtain ⟨hdiff, rfl⟩ := sub_eq_ok.1 hrtd
  refine ⟨?_, rfl, rfl, rfl⟩
  unfold Balanced
  dsimp only
  unfold getTokenAmount at htokens
  split at htokens
  · -- no stake at the latest rate: the tokens are the balance
    cases htokens
    exact balanced_of_eq (by omega)
  · rename_i hlatest
    dsimp only at hlatest htokens
    obtain ⟨hr0, hbound, rfl⟩ := mulDiv_eq_ok.1 htokens
    have ht0 : pool.poolTokenBalance ≠ 0 := fun h0 => hlatest (.inr h0)
    -- with a nonzero balance no underflow is recorded, so the balance did not fall
    have hnone : pool.underflowRtdBalance.getD 0 = 0 := by
      rcases hund with hund | hund
      · rw [hund]; rfl
      · exact absurd hund hr0
    rw [hnone, Nat.sub_zero] at hbound ⊢
    have hge : pool.poolTokenBalance ≤
        pool.poolTokenBalance * (pool.rtdBalance + pool.pendingStake) / pool.rtdBalance :=
      (Nat.le_div_iff_mul_le (Nat.pos_of_ne_zero hr0)).2
        (Nat.mul_le_mul_left _ (Nat.le_add_right _ _))
    unfold getTokenAmount
    dsimp only
    rw [if_neg (by omega)]
    refine mulDiv_eq_ok.2 ⟨by omega, ?_, ?_⟩ <;>
      rw [Nat.mul_div_cancel _ (by omega)]
    exact hbound

/-- The rate of an epoch with an entry, from the activation epoch on, of a pool
not deactivated, is that entry. -/
theorem poolTokenExchangeRateAtEpoch_of_lookup {activationEpoch epoch : Nat}
    {rate : PoolTokenExchangeRate} (hact : pool.activationEpoch = some activationEpoch)
    (hle : activationEpoch ≤ epoch) (hdeact : pool.deactivationEpoch = none)
    (hrate : pool.exchangeRates.lookup epoch = some rate) :
    pool.poolTokenExchangeRateAtEpoch epoch = .ok rate := by
  have hactive : pool.isPreactiveAtEpoch epoch = false := by
    simp [isPreactiveAtEpoch, hact, hle]
  simp only [poolTokenExchangeRateAtEpoch, hactive, hdeact, hact, Option.getD_none, min_self,
    Bool.false_eq_true, if_false]
  cases epoch with
  | zero => simp [findExchangeRate, hrate, Nat.le_zero.1 hle]
  | succ epoch => simp [findExchangeRate, hle, hrate]

/-- `process_pending_stakes_and_withdraws` on an active pool fails only in its
arithmetic, in the withdrawals' underflow record or on a rate already stored for
the new epoch: its balance check holds of the rate it has just stored. -/
theorem processPendingStakesAndWithdraws_eq {activationEpoch epoch : Nat}
    {pool₁ pool₂ : StakingPool} (hact : pool.activationEpoch = some activationEpoch)
    (hle : activationEpoch ≤ epoch + 1) (hdeact : pool.deactivationEpoch = none)
    (hund : pool.underflowRtdBalance = none) (hepoch : epoch + 1 < u64Bound)
    (h₁ : pool.processPendingStakeWithdraw = .ok pool₁) (h₂ : pool₁.processPendingStake = .ok pool₂)
    (hnew : pool₂.exchangeRates.lookup (epoch + 1) = none) :
    pool.processPendingStakesAndWithdraws epoch =
      .ok { pool₂ with exchangeRates :=
        (epoch + 1, ⟨pool₂.rtdBalance, pool₂.poolTokenBalance⟩) :: pool₂.exchangeRates } := by
  obtain ⟨hact₁, hdeact₁, -, -, -, hund₁⟩ := processPendingStakeWithdraw_spec pool h₁
  obtain ⟨hbal, hact₂, hdeact₂, -⟩ := processPendingStake_balanced pool₁ (hund₁ hund) h₂
  let pool₃ := { pool₂ with exchangeRates :=
    (epoch + 1, ⟨pool₂.rtdBalance, pool₂.poolTokenBalance⟩) :: pool₂.exchangeRates }
  have hrate : pool₃.poolTokenExchangeRateAtEpoch (epoch + 1) =
      .ok ⟨pool₂.rtdBalance, pool₂.poolTokenBalance⟩ :=
    poolTokenExchangeRateAtEpoch_of_lookup pool₃ (hact₂.trans (hact₁.trans hact)) hle
      (hdeact₂.trans (hdeact₁.trans hdeact)) (by simp [pool₃])
  have hcheck : pool₃.checkBalanceInvariants (epoch + 1) = .ok () := by
    unfold checkBalanceInvariants
    rw [hrate, Except.ok_bind, show getTokenAmount ⟨pool₂.rtdBalance, pool₂.poolTokenBalance⟩ pool₃.rtdBalance =
      .ok pool₂.poolTokenBalance from hbal]
    simp [moveAssert, pool₃]
  have hadd : pool₂.addExchangeRate (epoch + 1) ⟨pool₂.rtdBalance, pool₂.poolTokenBalance⟩ =
      .ok pool₃ := by
    simp [addExchangeRate, hnew, pool₃]
  simp only [processPendingStakesAndWithdraws, add, hepoch, if_true, h₁, h₂, hadd, hcheck,
    Except.ok_bind, Except.pure_eq_ok, pool₃]

/-- The first epoch boundary of a pool activated at epoch 0 with 100 RTD pending. -/
theorem processPendingStakesAndWithdraws_first_boundary :
    (⟨0, some 0, none, 0, 0, 0, [(0, initialExchangeRate)], 100000000000, 0, 0, none, none⟩ :
        StakingPool).processPendingStakesAndWithdraws 0 =
      .ok ⟨0, some 0, none, 100000000000, 0, 100000000000,
        [(0 + 1, ⟨100000000000, 100000000000⟩), (0, initialExchangeRate)], 0, 0, 0, none, none⟩ :=
  @processPendingStakesAndWithdraws_eq
    ⟨0, some 0, none, 0, 0, 0, [(0, initialExchangeRate)], 100000000000, 0, 0, none, none⟩ 0 0
    ⟨0, some 0, none, 0, 0, 0, [(0, initialExchangeRate)], 100000000000, 0, 0, none, none⟩
    ⟨0, some 0, none, 100000000000, 0, 100000000000, [(0, initialExchangeRate)], 0, 0, 0, none, none⟩
    rfl (Nat.zero_le _) rfl rfl (by decide) (by decide) (by decide) (by decide)

end StakingPool

end Rtd
