import Rtd.GasModel

/-!
Charging gas at the end of a transaction: `GasCharger::charge_gas` and its two storage
handlers (gas_charger.rs), over what the charge reads of the temporary store
(temporary_store.rs).

The store is seen through its execution results: the size and old rebate of every written
object, the old rebate of every other modified object, the value of the smashed gas coin
and the accumulator events. `charge_gas` calls `ensure_active_inputs_mutated` before every
collection of storage; the results below already hold the mutable inputs it writes. A reset
drops the writes and smashes the gas coins again, which always gives the same results: the
store keeps them as `resetResults`.

The main result is that on the gas-coin path every charge stays within the budget and the
deduction from the gas coin goes through, provided the rebates stay below the `i64` sign bit;
the only other outcome is a panic on a cost product that does not fit in a `u64`.
-/

set_option autoImplicit false

namespace Rtd.Gas

open MachineWord
open Except (Holds holds_pure holds_of_eq_ok ok_bind)

/-! ### The temporary store, as the charge reads it -/

inductive AccumulatorOperation
  | merge
  | split
  deriving DecidableEq, Repr

structure AccumulatorEvent where
  address : ℕ
  operation : AccumulatorOperation
  amount : ℕ
  deriving DecidableEq, Repr

/-- A net change of an address balance: a positive one is split off the balance, any other
merged into it. accumulator_event.rs is not under checked arithmetic: the negation wraps. -/
def AccumulatorEvent.fromBalanceChange (address : ℕ) (netChange : ℤ) : AccumulatorEvent :=
  if 0 < netChange then ⟨address, .split, toUnsigned 64 netChange⟩
  else ⟨address, .merge, toUnsigned 64 (-netChange)⟩

structure ExecutionResults where
  /-- For every written object, its size for gas metering and the storage rebate of the
  version it replaces (zero for a created object). -/
  writtenObjects : List (ℕ × ℕ)
  /-- For every other modified object (deleted or wrapped), the storage rebate of its
  previous version. -/
  removedObjects : List ℕ
  gasCoinValue : ℕ
  accumulatorEvents : List AccumulatorEvent
  deriving DecidableEq, Repr

/-- Every rebate the objects of the results carry. -/
def ExecutionResults.totalRebate (results : ExecutionResults) : ℕ :=
  (results.writtenObjects.map Prod.snd).sum + results.removedObjects.sum

structure TemporaryStore where
  executionResults : ExecutionResults
  /-- The results of dropping the writes and smashing the gas coins again. -/
  resetResults : ExecutionResults
  deriving DecidableEq, Repr

structure GasCharger where
  gasModelVersion : ℕ
  smashedGasCoin : Option ℕ
  gasStatus : RtdGasStatus
  addressBalanceGasPayer : Option ℕ
  deriving DecidableEq

/-- gas_predicates.rs: from gas model version 4 on, running out of gas on storage charges
computation and input-object storage, not the whole budget. -/
def dontChargeBudgetOnStorageOog (gasModelVersion : ℕ) : Bool := 4 ≤ gasModelVersion

/-- `if execution_result.is_ok() { *execution_result = Err(err) }` -/
def failIfOk {α : Type} (executionResult : Except ExecutionFailureStatus α)
    (err : ExecutionFailureStatus) : Except ExecutionFailureStatus α :=
  match executionResult with
  | .ok _ => .error err
  | .error e => .error e

namespace TemporaryStore

variable (store : TemporaryStore)

def addAccumulatorEvent (event : AccumulatorEvent) : TemporaryStore :=
  { store with executionResults := { store.executionResults with
      accumulatorEvents := store.executionResults.accumulatorEvents ++ [event] } }

/-- Writes the gas coin with a new value. -/
def mutateInputObject (gasCoinValue : ℕ) : TemporaryStore :=
  { store with executionResults := { store.executionResults with gasCoinValue := gasCoinValue } }

/-- The loops of the two collections: each object is tracked in turn. -/
def trackStorageMutations (s : RtdGasStatus) : List (ℕ × ℕ) → Except Panic RtdGasStatus
  | [] => pure s
  | (newSize, storageRebate) :: objects => do
    let (s, _) ← s.trackStorageMutation newSize storageRebate
    trackStorageMutations s objects

/-- Tracks every modified object that is not written, at size zero. -/
def collectRebate (g : GasCharger) : Except Panic GasCharger := do
  let gasStatus ←
    trackStorageMutations g.gasStatus (store.executionResults.removedObjects.map (0, ·))
  pure { g with gasStatus := gasStatus }

/-- Tracks every written object at its new size, then the others. -/
def collectStorageAndRebate (g : GasCharger) : Except Panic GasCharger := do
  let gasStatus ← trackStorageMutations g.gasStatus store.executionResults.writtenObjects
  store.collectRebate { g with gasStatus := gasStatus }

/-- A metered meter appends one entry per object, in order. -/
theorem trackStorageMutations_holds (s : RtdGasStatus) (hcharge : s.charge = true)
    (objects : List (ℕ × ℕ)) :
    Holds Panic.IsMulOverflow
      (· = { s with perObjectStorage := s.perObjectStorage ++ objects.map s.entryFor })
      (trackStorageMutations s objects) := by
  induction objects generalizing s with
  | nil => exact holds_pure (by simp)
  | cons object objects ih =>
    rw [trackStorageMutations]
    refine (s.trackStorageMutation_holds hcharge object).bind fun out hout => ?_
    subst hout
    dsimp only
    -- the entries of the later objects are priced by the same table
    refine (ih _ (by exact hcharge)).mono (fun s' hs' => ?_) fun _ h => h
    rw [hs']
    simp [RtdGasStatus.entryFor]

theorem collectRebate_holds (g : GasCharger) (hcharge : g.gasStatus.charge = true) :
    Holds Panic.IsMulOverflow
      (· = { g with gasStatus := { g.gasStatus with
        perObjectStorage := g.gasStatus.perObjectStorage ++
          (store.executionResults.removedObjects.map (0, ·)).map g.gasStatus.entryFor } })
      (store.collectRebate g) := by
  unfold collectRebate
  exact (trackStorageMutations_holds _ hcharge _).bind fun _ h => holds_pure (by rw [h])

theorem collectStorageAndRebate_holds (g : GasCharger) (hcharge : g.gasStatus.charge = true) :
    Holds Panic.IsMulOverflow
      (· = { g with gasStatus := { g.gasStatus with
        perObjectStorage := g.gasStatus.perObjectStorage ++
          (store.executionResults.writtenObjects ++
            store.executionResults.removedObjects.map (0, ·)).map g.gasStatus.entryFor } })
      (store.collectStorageAndRebate g) := by
  unfold collectStorageAndRebate
  refine (trackStorageMutations_holds _ hcharge _).bind fun s hs => ?_
  subst hs
  refine (store.collectRebate_holds _ (by exact hcharge)).mono (fun g' hg' => ?_) fun _ h => h
  rw [hg']
  simp [RtdGasStatus.entryFor]

end TemporaryStore

/-! ### `charge_gas` -/

/-- What `charge_gas` returns, with what it leaves of the charger, the store and the
execution result. -/
structure Charged (α : Type) where
  costSummary : GasCostSummary
  gasCharger : GasCharger
  temporaryStore : TemporaryStore
  executionResult : Except ExecutionFailureStatus α
  deriving DecidableEq

namespace GasCharger

variable {α : Type}

/-- Drops the writes and the tracked storage, and smashes the gas coins again. -/
def reset (g : GasCharger) (store : TemporaryStore) : GasCharger × TemporaryStore :=
  ({ g with gasStatus := g.gasStatus.resetStorageCostAndRebate },
    { store with executionResults := store.resetResults })

/-- Out of gas on storage: reset and charge the whole budget, with the rebates only. -/
def handleStorageAndRebateV1 (g : GasCharger) (store : TemporaryStore)
    (executionResult : Except ExecutionFailureStatus α) :
    Except Panic (GasCharger × TemporaryStore × Except ExecutionFailureStatus α) := do
  match ← g.gasStatus.chargeStorageAndRebate with
  | .ok () => pure (g, store, executionResult)
  | .error err =>
    let (g, store) := g.reset store
    let g := { g with gasStatus := g.gasStatus.adjustComputationOnOutOfGas }
    let g ← store.collectRebate g
    pure (g, store, failIfOk executionResult err)

/-- Out of gas on storage: reset and charge computation and the storage of the input objects;
out of gas again: charge the whole budget, with the rebates only. -/
def handleStorageAndRebateV2 (g : GasCharger) (store : TemporaryStore)
    (executionResult : Except ExecutionFailureStatus α) :
    Except Panic (GasCharger × TemporaryStore × Except ExecutionFailureStatus α) := do
  match ← g.gasStatus.chargeStorageAndRebate with
  | .ok () => pure (g, store, executionResult)
  | .error err =>
    let (g, store) := g.reset store
    let g ← store.collectStorageAndRebate g
    match ← g.gasStatus.chargeStorageAndRebate with
    | .error err =>
      let (g, store) := g.reset store
      let g := { g with gasStatus := g.gasStatus.adjustComputationOnOutOfGas }
      let g ← store.collectRebate g
      pure (g, store, failIfOk executionResult err)
    -- the source reports the first error here, which its inner binding does not shadow
    | .ok () => pure (g, store, failIfOk executionResult err)

def computeStorageAndRebate (g : GasCharger) (store : TemporaryStore)
    (executionResult : Except ExecutionFailureStatus α) :
    Except Panic (GasCharger × TemporaryStore × Except ExecutionFailureStatus α) :=
  if dontChargeBudgetOnStorageOog g.gasModelVersion then
    g.handleStorageAndRebateV2 store executionResult
  else g.handleStorageAndRebateV1 store executionResult

/-- Bucketizes computation (and resets on an error) for a transaction that pays gas,
collects storage, and charges: an address balance by an accumulator event, the smashed gas
coin by `deduct_gas`. A system transaction pays nothing. -/
def chargeGas (g : GasCharger) (store : TemporaryStore)
    (executionResult : Except ExecutionFailureStatus α) : Except Panic (Charged α) := do
  let (g, store, executionResult) ←
    (if g.smashedGasCoin.isSome || g.addressBalanceGasPayer.isSome then do
      let isMoveAbort := executionResult matches .error (.moveAbort _ _)
      let (gasStatus, bucketized) ← g.gasStatus.bucketizeComputation (some isMoveAbort)
      let g := { g with gasStatus := gasStatus }
      let executionResult := match bucketized with
        | .error err => failIfOk executionResult err
        | .ok () => executionResult
      if executionResult matches .error _ then
        let (g, store) := g.reset store
        pure (g, store, executionResult)
      else pure (g, store, executionResult)
    else pure (g, store, executionResult))
  let g ← store.collectStorageAndRebate g
  match g.addressBalanceGasPayer, g.smashedGasCoin with
  | some payerAddress, _ =>
    if executionResult matches .error .insufficientFundsForWithdraw then
      pure ⟨default, g, store, executionResult⟩
    else do
      let (g, store, executionResult) ← g.computeStorageAndRebate store executionResult
      let costSummary ← g.gasStatus.summary
      let netChange ← costSummary.netGasUsage
      let store := if netChange ≠ 0 then
          store.addAccumulatorEvent (.fromBalanceChange payerAddress netChange)
        else store
      pure ⟨costSummary, g, store, executionResult⟩
  | none, some _ => do
    let (g, store, executionResult) ← g.computeStorageAndRebate store executionResult
    let costSummary ← g.gasStatus.summary
    let gasUsed ← costSummary.netGasUsage
    let balance ← deductGas store.executionResults.gasCoinValue gasUsed
    pure ⟨costSummary, g, store.mutateInputObject balance, executionResult⟩
  | none, none => pure ⟨default, g, store, executionResult⟩

end GasCharger

/-! ### What every step of the charge keeps -/

/-- The bounds that the argument needs of a state of the store: the gas coin covers the
budget, the budget and every rebate of the state stay below the sign bit of an `i64`, and
the coin with those rebates stays a `u64`. -/
structure ExecutionResults.Covers (results : ExecutionResults) (gasBudget : ℕ) : Prop where
  gasBudget_le : gasBudget ≤ results.gasCoinValue
  rebate_lt : gasBudget + results.totalRebate < 2 ^ 63
  gasCoin_add_rebate_lt : results.gasCoinValue + results.totalRebate < 2 ^ 64

/-- What the charge keeps from the charger and store it starts with: the charger's settings,
a computation cost within the budget, the executed or the reset results, and tracked rebates
that the current results carry. -/
structure Charging (g₀ : GasCharger) (store₀ : TemporaryStore) (g : GasCharger)
    (store : TemporaryStore) : Prop where
  smashedGasCoin_eq : g.smashedGasCoin = g₀.smashedGasCoin
  addressBalanceGasPayer_eq : g.addressBalanceGasPayer = g₀.addressBalanceGasPayer
  gasModelVersion_eq : g.gasModelVersion = g₀.gasModelVersion
  gasBudget_eq : g.gasStatus.gasBudget = g₀.gasStatus.gasBudget
  rebateRate_eq : g.gasStatus.rebateRate = g₀.gasStatus.rebateRate
  charge_eq : g.gasStatus.charge = g₀.gasStatus.charge
  computationCost_le : g.gasStatus.computationCost ≤ g.gasStatus.gasBudget
  resetResults_eq : store.resetResults = store₀.resetResults
  results_cases :
    store.executionResults = store₀.executionResults ∨ store.executionResults = store₀.resetResults
  rebate_le :
    (g.gasStatus.perObjectStorage.map (·.storageRebate)).sum ≤ store.executionResults.totalRebate

namespace Charging

variable {g₀ g g' : GasCharger} {store₀ store store' : TemporaryStore}

theorem reset (h : Charging g₀ store₀ g store) (hr : g.reset store = (g', store')) :
    Charging g₀ store₀ g' store' ∧ g'.gasStatus.perObjectStorage = [] := by
  simp only [GasCharger.reset, Prod.mk.injEq] at hr
  obtain ⟨rfl, rfl⟩ := hr
  exact ⟨{ h with
    results_cases := .inr h.resetResults_eq
    rebate_le := by simp [RtdGasStatus.resetStorageCostAndRebate] }, rfl⟩

theorem adjust (h : Charging g₀ store₀ g store) :
    Charging g₀ store₀ { g with gasStatus := g.gasStatus.adjustComputationOnOutOfGas } store :=
  { h with
    computationCost_le := le_rfl
    rebate_le := by simp [RtdGasStatus.adjustComputationOnOutOfGas] }

/-- Collecting into an empty meter tracks exactly the rebates of the current results. -/
theorem collectStorageAndRebate (h : Charging g₀ store₀ g store)
    (hfresh : g.gasStatus.perObjectStorage = []) (hcharge : g₀.gasStatus.charge = true) :
    Holds Panic.IsMulOverflow (Charging g₀ store₀ · store) (store.collectStorageAndRebate g) := by
  refine (store.collectStorageAndRebate_holds g (h.charge_eq.trans hcharge)).mono
    (fun g' hg' => ?_) fun _ hp => hp
  subst hg'
  exact { h with
    rebate_le := by
      simp [hfresh, RtdGasStatus.entryFor, ExecutionResults.totalRebate, Function.comp_def] }

/-- Collecting only the rebates into an empty meter leaves no storage cost: every removed
object is tracked at size zero. -/
theorem collectRebate (h : Charging g₀ store₀ g store)
    (hfresh : g.gasStatus.perObjectStorage = []) (hcharge : g₀.gasStatus.charge = true) :
    Holds Panic.IsMulOverflow (fun g' => Charging g₀ store₀ g' store ∧ g'.gasStatus.Covered)
      (store.collectRebate g) := by
  refine (store.collectRebate_holds g (h.charge_eq.trans hcharge)).mono
    (fun g' hg' => ?_) fun _ hp => hp
  subst hg'
  refine ⟨{ h with rebate_le := ?_ }, ?_⟩
  · simp [hfresh, RtdGasStatus.entryFor, ExecutionResults.totalRebate, Function.comp_def]
  · simp [RtdGasStatus.Covered, RtdGasStatus.storageCost, RtdGasStatus.storageGasUnits, hfresh,
      RtdGasStatus.entryFor, Function.comp_def, truncate]

end Charging

namespace GasCharger

variable {α : Type} {g₀ : GasCharger} {store₀ : TemporaryStore}

section Handlers

variable {g : GasCharger} {store : TemporaryStore} (executionResult : Except ExecutionFailureStatus α)
  (h : Charging g₀ store₀ g store) (hrate : g₀.gasStatus.rebateRate ≤ 10000)
  (hcharge : g₀.gasStatus.charge = true)
include h hrate hcharge

/-- Both storage handlers end with the storage cost covered. -/
theorem handleStorageAndRebateV1_holds :
    Holds Panic.IsMulOverflow (fun out => Charging g₀ store₀ out.1 out.2.1 ∧ out.1.gasStatus.Covered)
      (g.handleStorageAndRebateV1 store executionResult) := by
  unfold handleStorageAndRebateV1
  rw [RtdGasStatus.chargeStorageAndRebate_eq _ (h.rebateRate_eq ▸ hrate) h.computationCost_le,
    ok_bind]
  by_cases hcov : g.gasStatus.Covered
  · simp only [if_pos hcov]
    exact holds_pure ⟨h, hcov⟩
  · simp only [if_neg hcov]
    rcases hr : g.reset store with ⟨g₁, store₁⟩
    obtain ⟨h₁, -⟩ := h.reset hr
    dsimp only
    exact (h₁.adjust.collectRebate rfl hcharge).bind fun _ hg => holds_pure hg

theorem handleStorageAndRebateV2_holds :
    Holds Panic.IsMulOverflow (fun out => Charging g₀ store₀ out.1 out.2.1 ∧ out.1.gasStatus.Covered)
      (g.handleStorageAndRebateV2 store executionResult) := by
  unfold handleStorageAndRebateV2
  rw [RtdGasStatus.chargeStorageAndRebate_eq _ (h.rebateRate_eq ▸ hrate) h.computationCost_le,
    ok_bind]
  by_cases hcov : g.gasStatus.Covered
  · simp only [if_pos hcov]
    exact holds_pure ⟨h, hcov⟩
  · simp only [if_neg hcov]
    rcases hr : g.reset store with ⟨g₁, store₁⟩
    obtain ⟨h₁, hfresh₁⟩ := h.reset hr
    dsimp only
    -- the second charge is of the input objects' storage
    refine (h₁.collectStorageAndRebate hfresh₁ hcharge).bind fun g₂ h₂ => ?_
    rw [RtdGasStatus.chargeStorageAndRebate_eq _ (h₂.rebateRate_eq ▸ hrate) h₂.computationCost_le,
      ok_bind]
    by_cases hcov₂ : g₂.gasStatus.Covered
    · simp only [if_pos hcov₂]
      exact holds_pure ⟨h₂, hcov₂⟩
    · simp only [if_neg hcov₂]
      rcases hr₂ : g₂.reset store₁ with ⟨g₃, store₃⟩
      obtain ⟨h₃, -⟩ := h₂.reset hr₂
      dsimp only
      exact (h₃.adjust.collectRebate rfl hcharge).bind fun _ hg => holds_pure hg

theorem computeStorageAndRebate_holds :
    Holds Panic.IsMulOverflow (fun out => Charging g₀ store₀ out.1 out.2.1 ∧ out.1.gasStatus.Covered)
      (g.computeStorageAndRebate store executionResult) := by
  unfold computeStorageAndRebate
  split
  · exact handleStorageAndRebateV2_holds executionResult h hrate hcharge
  · exact handleStorageAndRebateV1_holds executionResult h hrate hcharge

end Handlers

end GasCharger

/-! ### The charge stays within the budget -/

/-- A charge within the budget: computation within the budget, the rebate split into the
sender's share, rounded half up, and the non-refundable fee, a net usage within the budget,
and a gas coin that pays exactly the net usage. -/
structure WithinBudget {α : Type} (g : GasCharger) (store : TemporaryStore) (out : Charged α) :
    Prop where
  computationCost_le : out.costSummary.computationCost ≤ g.gasStatus.gasBudget
  rebate_split : out.costSummary.storageRebate + out.costSummary.nonRefundableStorageFee =
    out.gasCharger.gasStatus.storageRebate
  rebate_rounded : out.costSummary.storageRebate =
    roundHalfUp ((out.gasCharger.gasStatus.storageRebate * g.gasStatus.rebateRate : ℚ) / 10000)
  netGasUsage_eq : out.costSummary.netGasUsage = .ok
    ((out.costSummary.computationCost + out.costSummary.storageCost : ℕ) -
      out.costSummary.storageRebate)
  netGasUsage_le : ((out.costSummary.computationCost + out.costSummary.storageCost : ℕ) -
    out.costSummary.storageRebate : ℤ) ≤ g.gasStatus.gasBudget
  gasCoin_eq : ∃ results, (results = store.executionResults ∨ results = store.resetResults) ∧
    (out.temporaryStore.executionResults.gasCoinValue : ℤ) = results.gasCoinValue -
      ((out.costSummary.computationCost + out.costSummary.storageCost : ℕ) -
        out.costSummary.storageRebate)

namespace GasCharger

variable {α : Type}

theorem chargeGas_holds (g : GasCharger) (store : TemporaryStore)
    (executionResult : Except ExecutionFailureStatus α)
    (hcoin : g.smashedGasCoin.isSome) (hpayer : g.addressBalanceGasPayer = none)
    (hcharge : g.gasStatus.charge = true) (hfresh : g.gasStatus.perObjectStorage = [])
    (hused : g.gasStatus.gasStatus.gasUsedPreGasPrice < 2 ^ 64)
    (hrate : g.gasStatus.rebateRate ≤ 10000)
    (hexec : store.executionResults.Covers g.gasStatus.gasBudget)
    (hreset : store.resetResults.Covers g.gasStatus.gasBudget) :
    Holds Panic.IsMulOverflow (WithinBudget g store) (g.chargeGas store executionResult) := by
  unfold chargeGas
  rw [if_pos (by simp [hcoin])]
  -- bucketization, and a reset when the execution failed
  refine Holds.bind
    (R := fun out => Charging g store out.1 out.2.1 ∧ out.1.gasStatus.perObjectStorage = [])
    ?bucketized fun out₁ hout₁ => ?_
  case bucketized =>
    refine (g.gasStatus.bucketizeComputation_holds _ hused).bind fun out hout => ?_
    obtain ⟨s₁, bucketized⟩ := out
    obtain ⟨c, hc, hs₁, _⟩ := hout
    dsimp only at hs₁ ⊢
    subst hs₁
    have h₀ : Charging g store { g with gasStatus := { g.gasStatus with computationCost := c } }
        store := ⟨rfl, rfl, rfl, rfl, rfl, rfl, hc, rfl, .inl rfl, by simp [hfresh]⟩
    split
    · exact holds_pure (h₀.reset rfl)
    · exact holds_pure ⟨h₀, hfresh⟩
  obtain ⟨g₁, store₁, result₁⟩ := out₁
  obtain ⟨h₁, hfresh₁⟩ := hout₁
  dsimp only
  refine (h₁.collectStorageAndRebate hfresh₁ hcharge).bind fun g₂ h₂ => ?_
  obtain ⟨coin, hcoin'⟩ := Option.isSome_iff_exists.mp hcoin
  rw [h₂.addressBalanceGasPayer_eq, hpayer, h₂.smashedGasCoin_eq, hcoin']
  dsimp only
  refine (computeStorageAndRebate_holds result₁ h₂ hrate hcharge).bind
    fun out₃ hout₃ => ?_
  obtain ⟨g₃, store₃, result₃⟩ := out₃
  obtain ⟨h₃, hcov₃⟩ := hout₃
  dsimp only at h₃ hcov₃ ⊢
  -- the final meter: its storage is covered and its rebates are those of one state
  have hrate₃ : g₃.gasStatus.rebateRate ≤ 10000 := h₃.rebateRate_eq ▸ hrate
  have hcovers : store₃.executionResults.Covers g.gasStatus.gasBudget := by
    rcases h₃.results_cases with h | h <;> rw [h] <;> assumption
  have hR : g₃.gasStatus.storageRebate ≤ store₃.executionResults.totalRebate :=
    (Nat.mod_le _ _).trans h₃.rebate_le
  have hsr := senderRebate_le g₃.gasStatus.storageRebate_lt hrate₃
  have hC := h₃.computationCost_le
  have hB := h₃.gasBudget_eq
  have hcov : g₃.gasStatus.storageCost ≤ senderRebate g₃.gasStatus.storageRebate
      g₃.gasStatus.rebateRate + (g₃.gasStatus.gasBudget - g₃.gasStatus.computationCost) := hcov₃
  have hfit := hcovers.rebate_lt
  have hcoinFit := hcovers.gasCoin_add_rebate_lt
  have hcoinCover := hcovers.gasBudget_le
  rw [RtdGasStatus.summary_eq _ hrate₃, ok_bind,
    GasCostSummary.netGasUsage_eq (by dsimp only; omega) (by dsimp only; omega), ok_bind]
  dsimp only
  obtain ⟨balance, hbalance, hbalanceEq⟩ :=
    deductGas_eq store₃.executionResults.gasCoinValue
      ((g₃.gasStatus.computationCost + g₃.gasStatus.storageCost : ℕ) -
        senderRebate g₃.gasStatus.storageRebate g₃.gasStatus.rebateRate)
      (by omega) (by omega) (by omega) (by omega)
  rw [hbalance, ok_bind]
  refine holds_pure ⟨by dsimp only; omega, by dsimp only; omega, ?_, ?_, by dsimp only; omega, ?_⟩
  · rw [← h₃.rebateRate_eq]
    exact senderRebate_eq_roundHalfUp g₃.gasStatus.storageRebate_lt hrate₃
  · exact GasCostSummary.netGasUsage_eq (by dsimp only; omega) (by dsimp only; omega)
  · exact ⟨_, h₃.results_cases, hbalanceEq⟩

end GasCharger

/-! ### One deletion of an object -/

namespace OneDeletion

/-- A budget of `10^9` at a gas price of 1000 rounded to steps of 1000, one unit of gas
used, storage at 76 per byte and a storage price of one, and the rebate rate of 99%. -/
def charger : GasCharger :=
  ⟨5, some 0, .new ⟨1⟩ 1000000000 true 1000 1000 1 9900 (some 1000) ⟨76, [], none⟩, none⟩

/-- The transaction deletes an object with a rebate of 5000; the gas coin of 100 bytes holds
the budget. -/
def smallStore : TemporaryStore :=
  ⟨⟨[(100, 7600)], [5000], 1000000000, []⟩, ⟨[(100, 7600)], [], 1000000000, []⟩⟩

end OneDeletion

end Rtd.Gas
