import Rtd.MachineWord
import Rtd.Except

/-!
The gas meter of a transaction (`RtdGasStatus` in gas_v2.rs) and the summary it reports
(`GasCostSummary`, `net_gas_usage` and `deduct_gas` in gas.rs). Both files are compiled
under `with_checked_arithmetic`: every `+`, `-`, `*`, `/`, `%` and unary `-` there is checked
and panics on overflow. The `as` casts are not rewritten and wrap, and the iterator sums are
library code that wraps in a release build.
-/

set_option autoImplicit false

namespace Rtd.Gas

open MachineWord
open Except (Holds holds_pure holds_of_eq_ok ok_bind)

/-- The checked method that an overflow panic names. -/
inductive CheckedMethod
  | checkedAdd
  | checkedSub
  | checkedMul
  | checkedDiv
  | checkedRem
  deriving DecidableEq, Repr

/-- The ways the gas code panics. -/
inductive Panic
  /-- Overflow or underflow in the named checked method, with its two operands. -/
  | overflow (method : CheckedMethod) (left right : ℤ)
  /-- Overflow or underflow in negation. -/
  | negationOverflow
  /-- The assertion that the sender's share of the rebate does not exceed the rebate. -/
  | senderRebateAboveStorageRebate
  /-- The assertion of deduct_gas that the gas coin covers the charge. -/
  | balanceBelowCharge
  deriving DecidableEq, Repr

/-- The panics that the charging code cannot rule out from its own state: a quantity times
a price that does not fit in a `u64`. -/
def Panic.IsMulOverflow : Panic → Prop
  | .overflow .checkedMul _ _ => True
  | _ => False

theorem Panic.isMulOverflow_iff {p : Panic} :
    p.IsMulOverflow ↔ ∃ a b, p = .overflow .checkedMul a b := by
  constructor
  · intro hp
    match p, hp with
    | .overflow .checkedMul a b, _ => exact ⟨a, b, rfl⟩
  · rintro ⟨a, b, rfl⟩
    trivial

/-- The failures of an execution that the gas code tells apart; `other` stands for every
failure status it only sees as an error. -/
inductive ExecutionFailureStatus
  | insufficientGas
  | moveAbort (location code : ℕ)
  | insufficientFundsForWithdraw
  | other (kind : ℕ)
  deriving DecidableEq, Repr

/-! ### Checked `u64` and `i64` arithmetic -/

/-- A checked operation's result, or the panic that names it. -/
def orOverflow {α : Type} (method : CheckedMethod) (a b : ℤ) : Option α → Except Panic α
  | some r => .ok r
  | none => .error (.overflow method a b)

def addU64 (a b : ℕ) : Except Panic ℕ := orOverflow .checkedAdd a b (checkedAdd 64 a b)

def subU64 (a b : ℕ) : Except Panic ℕ := orOverflow .checkedSub a b (checkedSub a b)

def mulU64 (a b : ℕ) : Except Panic ℕ := orOverflow .checkedMul a b (checkedMul 64 a b)

def divU64 (a b : ℕ) : Except Panic ℕ := orOverflow .checkedDiv a b (checkedDiv a b)

def remU64 (a b : ℕ) : Except Panic ℕ := orOverflow .checkedRem a b (checkedRem a b)

def subI64 (a b : ℤ) : Except Panic ℤ := orOverflow .checkedSub a b (checkedSubSigned 64 a b)

def negI64 (a : ℤ) : Except Panic ℤ :=
  match checkedNegSigned 64 a with
  | some r => .ok r
  | none => .error .negationOverflow

section Checked

variable {α : Type} {method : CheckedMethod} {a b : ℤ} {o : Option α} {r : α} {p : Panic}

@[simp] theorem orOverflow_eq_ok : orOverflow method a b o = .ok r ↔ o = some r := by
  cases o <;> simp [orOverflow]

@[simp] theorem orOverflow_eq_error :
    orOverflow method a b o = .error p ↔ o = none ∧ p = .overflow method a b := by
  cases o <;> simp [orOverflow, eq_comm]

end Checked

theorem addU64_eq {a b : ℕ} (h : a + b < 2 ^ 64) : addU64 a b = .ok (a + b) := by
  simp only [addU64, orOverflow_eq_ok, checkedAdd_eq_some, and_true]
  exact h

theorem subU64_eq {a b : ℕ} (h : b ≤ a) : subU64 a b = .ok (a - b) := by
  simp [subU64, h]

theorem divU64_eq {a b : ℕ} (h : 0 < b) : divU64 a b = .ok (a / b) := by
  simp [divU64, h]

theorem remU64_eq {a b : ℕ} (h : 0 < b) : remU64 a b = .ok (a % b) := by
  simp [remU64, h]

theorem subI64_eq {a b : ℤ} (h : InSigned 64 (a - b)) : subI64 a b = .ok (a - b) := by
  simp only [subI64, orOverflow_eq_ok, checkedSubSigned_eq_some, and_true]
  exact h

theorem mulU64_holds (a b : ℕ) :
    Except.Holds Panic.IsMulOverflow (· = a * b) (mulU64 a b) := by
  unfold mulU64 checkedMul
  split
  · rfl
  · trivial

@[simp] theorem negI64_eq_ok {a r : ℤ} : negI64 a = .ok r ↔ InSigned 64 (-a) ∧ -a = r := by
  rw [← checkedNegSigned_eq_some]
  unfold negI64
  cases checkedNegSigned 64 a <;> simp

/-! ### Computation buckets and the sender's rebate -/

structure ComputationBucket where
  max : ℕ
  cost : ℕ
  deriving DecidableEq, Repr

/-- The cost of the first bucket whose upper end reaches the computation cost; past the
last bucket, the last one's cost. -/
def getBucketCost (table : List ComputationBucket) (computationCost : ℕ) : ℕ :=
  match table.find? (fun bucket => computationCost ≤ bucket.max) with
  | some bucket => bucket.cost
  | none =>
    match table.getLast? with
    | none => 5000000
    | some bucket => bucket.cost

/-- The sender's share of a storage rebate in basis points, rounded half up. The `u128`
operations cannot overflow on `u64` operands; the final `as u64` truncates. -/
def senderRebate (storageRebate storageRebateRate : ℕ) : ℕ :=
  truncate 64 ((storageRebate * storageRebateRate + 10000 / 2) / 10000)

/-- On a `u64` rebate and a rate of at most 10000 basis points the truncation does nothing. -/
theorem senderRebate_eq {storageRebate rate : ℕ} (hr : storageRebate < 2 ^ 64)
    (hrate : rate ≤ 10000) :
    senderRebate storageRebate rate = (storageRebate * rate + 5000) / 10000 := by
  have hmul : storageRebate * rate ≤ storageRebate * 10000 := Nat.mul_le_mul_left _ hrate
  unfold senderRebate
  exact truncate_of_lt (by omega)

theorem senderRebate_le {storageRebate rate : ℕ} (hr : storageRebate < 2 ^ 64)
    (hrate : rate ≤ 10000) : senderRebate storageRebate rate ≤ storageRebate := by
  have hmul : storageRebate * rate ≤ storageRebate * 10000 := Nat.mul_le_mul_left _ hrate
  rw [senderRebate_eq hr hrate]
  omega

/-- The sender's rebate is the rebate times the rate in basis points, rounded to the
nearest integer with ties up. -/
theorem senderRebate_eq_roundHalfUp {storageRebate rate : ℕ} (hr : storageRebate < 2 ^ 64)
    (hrate : rate ≤ 10000) :
    senderRebate storageRebate rate = roundHalfUp ((storageRebate * rate : ℚ) / 10000) := by
  have hround := roundHalfUp_div (storageRebate * rate) 10000 (by norm_num)
  push_cast at hround
  rw [hround, senderRebate_eq hr hrate]

/-! ### The gas meter -/

/-- The part of the cost table that the charging code reads. -/
structure RtdCostTable where
  storagePerByteCost : ℕ
  computationBucket : List ComputationBucket
  maxGasPriceRgpFactorForAbortedTransactions : Option ℕ
  deriving DecidableEq, Repr

/-- The Move VM's meter, as the charging code reads it. -/
structure GasStatus where
  gasUsedPreGasPrice : ℕ
  deriving DecidableEq, Repr

/-- The storage cost and rebate tracked for one written or removed object. -/
structure PerObjectStorage where
  storageCost : ℕ
  storageRebate : ℕ
  newSize : ℕ
  deriving DecidableEq, Repr

structure RtdGasStatus where
  gasStatus : GasStatus
  costTable : RtdCostTable
  gasBudget : ℕ
  computationCost : ℕ
  charge : Bool
  gasPrice : ℕ
  referenceGasPrice : ℕ
  storageGasPrice : ℕ
  perObjectStorage : List PerObjectStorage
  rebateRate : ℕ
  unmeteredStorageRebate : ℕ
  gasRoundingStep : Option ℕ
  /-- The constructor raises a rounding step of zero to one. -/
  gasRoundingStep_pos : ∀ step ∈ gasRoundingStep, 0 < step
  deriving DecidableEq

structure GasCostSummary where
  computationCost : ℕ
  storageCost : ℕ
  storageRebate : ℕ
  nonRefundableStorageFee : ℕ
  deriving DecidableEq, Repr, Inhabited

namespace RtdGasStatus

def new (gasStatus : GasStatus) (gasBudget : ℕ) (charge : Bool)
    (gasPrice referenceGasPrice storageGasPrice rebateRate : ℕ) (gasRoundingStep : Option ℕ)
    (costTable : RtdCostTable) : RtdGasStatus where
  gasStatus := gasStatus
  gasBudget := gasBudget
  charge := charge
  computationCost := 0
  gasPrice := gasPrice
  referenceGasPrice := referenceGasPrice
  storageGasPrice := storageGasPrice
  perObjectStorage := []
  rebateRate := rebateRate
  unmeteredStorageRebate := 0
  gasRoundingStep := gasRoundingStep.map (fun val => max val 1)
  costTable := costTable
  gasRoundingStep_pos := by
    intro step hstep
    simp only [Option.mem_def, Option.map_eq_some_iff] at hstep
    obtain ⟨val, -, rfl⟩ := hstep
    omega

variable (s : RtdGasStatus)

def isUnmetered : Bool := !s.charge

/-- The tracked storage costs, summed as a release build sums `u64`s. -/
def storageGasUnits : ℕ := truncate 64 (s.perObjectStorage.map (·.storageCost)).sum

def storageCost : ℕ := s.storageGasUnits

/-- The tracked storage rebates, summed as a release build sums `u64`s. -/
def storageRebate : ℕ := truncate 64 (s.perObjectStorage.map (·.storageRebate)).sum

theorem storageRebate_lt : s.storageRebate < 2 ^ 64 := Nat.mod_lt _ (by positivity)

/-- Sets the computation cost to the used gas priced and rounded up to the rounding step, or
to its bucket; an aborted transaction pays at most a multiple of the reference gas price.
A cost that reaches the budget is cut to the budget and fails with insufficient gas. -/
def bucketizeComputation (aborted : Option Bool) :
    Except Panic (RtdGasStatus × Except ExecutionFailureStatus Unit) := do
  let gasUsed := s.gasStatus.gasUsedPreGasPrice
  let effectiveGasPrice ←
    (match s.costTable.maxGasPriceRgpFactorForAbortedTransactions, aborted.getD false with
    | some factor, true => do
      let maxGasPriceForAbortedTxns ← mulU64 factor s.referenceGasPrice
      pure (min s.gasPrice maxGasPriceForAbortedTxns)
    | _, _ => pure s.gasPrice)
  let gasUsed ←
    (match s.gasRoundingStep with
    | some gasRounding => do
      -- the remainder is only computed for a positive amount, as the `&&` of the source
      let exact ← (if 0 < gasUsed then do
          let m ← remU64 gasUsed gasRounding
          pure (decide (m = 0))
        else pure false)
      if exact then mulU64 gasUsed effectiveGasPrice
      else do
        let steps ← divU64 gasUsed gasRounding
        let steps ← addU64 steps 1
        let rounded ← mulU64 steps gasRounding
        mulU64 rounded effectiveGasPrice
    | none => mulU64 (getBucketCost s.costTable.computationBucket gasUsed) effectiveGasPrice)
  if s.gasBudget ≤ gasUsed then
    pure ({ s with computationCost := s.gasBudget }, .error .insufficientGas)
  else
    pure ({ s with computationCost := gasUsed }, .ok ())

/-- A step count one past the used gas divided by a step that leaves a remainder fits:
the step is then at least two. -/
private theorem steps_add_one_lt {used step : ℕ} (hused : used < 2 ^ 64) (hstep : 0 < step)
    (hrem : used = 0 ∨ used % step ≠ 0) : used / step + 1 < 2 ^ 64 := by
  rcases hrem with rfl | hrem
  · simp
  have hone : step ≠ 1 := by rintro rfl; exact hrem (Nat.mod_one used)
  have hstep : 1 < step := by omega
  have hpos : 0 < used := Nat.pos_of_ne_zero (by rintro rfl; simp at hrem)
  have := Nat.div_lt_self hpos hstep
  omega

/-- Bucketization sets the computation cost, to at most the budget, and changes nothing
else; it panics only on a price times an amount of gas that does not fit in a `u64`. -/
theorem bucketizeComputation_holds (aborted : Option Bool)
    (hused : s.gasStatus.gasUsedPreGasPrice < 2 ^ 64) :
    Holds Panic.IsMulOverflow
      (fun out => ∃ c ≤ s.gasBudget, out.1 = { s with computationCost := c } ∧
        (out.2 = .ok () ∨ out.2 = .error .insufficientGas))
      (s.bucketizeComputation aborted) := by
  unfold bucketizeComputation
  dsimp only
  refine Holds.bind (R := fun _ => True) ?price fun effectiveGasPrice _ => ?_
  case price =>
    split
    · exact (mulU64_holds _ _).bind fun _ _ => holds_pure trivial
    · exact holds_pure trivial
  refine Holds.bind (R := fun _ => True) ?charge fun gasUsed _ => ?_
  case charge =>
    split
    · rename_i gasRounding hstep
      have hpos := s.gasRoundingStep_pos gasRounding hstep
      -- a rounded charge is only computed for gas that is zero or off the step
      refine Holds.bind (R := fun exact => exact = false →
          s.gasStatus.gasUsedPreGasPrice = 0 ∨ s.gasStatus.gasUsedPreGasPrice % gasRounding ≠ 0)
        ?exact fun exact hexact => ?_
      case exact =>
        split
        · rw [remU64_eq hpos, ok_bind]
          exact holds_pure fun h => .inr (by simpa using h)
        · exact holds_pure fun _ => .inl (by omega)
      split
      · exact (mulU64_holds _ _).mono (fun _ _ => trivial) fun _ h => h
      · have hsteps := steps_add_one_lt hused hpos (hexact (by simpa using ‹¬exact = true›))
        rw [divU64_eq hpos, ok_bind, addU64_eq hsteps, ok_bind]
        exact (mulU64_holds _ _).bind fun _ _ =>
          (mulU64_holds _ _).mono (fun _ _ => trivial) fun _ h => h
    · exact (mulU64_holds _ _).mono (fun _ _ => trivial) fun _ h => h
  split
  · exact holds_pure ⟨_, le_rfl, rfl, .inr rfl⟩
  · exact holds_pure ⟨gasUsed, by omega, rfl, .inl rfl⟩

/-- The final costs; the rebate splits into the sender's share and the non-refundable fee.
The subtraction is checked, but the assertion before it rules out a borrow. -/
def summary : Except Panic GasCostSummary :=
  let storageRebate := s.storageRebate
  let senderRebate := senderRebate storageRebate s.rebateRate
  if senderRebate ≤ storageRebate then
    .ok { computationCost := s.computationCost
          storageCost := s.storageCost
          storageRebate := senderRebate
          nonRefundableStorageFee := storageRebate - senderRebate }
  else .error .senderRebateAboveStorageRebate

/-- With a rate of at most 10000 basis points the assertion holds. -/
theorem summary_eq (hrate : s.rebateRate ≤ 10000) :
    s.summary = .ok
      { computationCost := s.computationCost
        storageCost := s.storageCost
        storageRebate := senderRebate s.storageRebate s.rebateRate
        nonRefundableStorageFee := s.storageRebate - senderRebate s.storageRebate s.rebateRate } := by
  unfold summary
  rw [if_pos (senderRebate_le s.storageRebate_lt hrate)]

/-- Records the storage cost of an object's new size and the rebate of its old version;
returns the new storage rebate of the object. -/
def trackStorageMutation (newSize storageRebate : ℕ) : Except Panic (RtdGasStatus × ℕ) :=
  if s.isUnmetered then do
    let unmetered ← addU64 s.unmeteredStorageRebate storageRebate
    pure ({ s with unmeteredStorageRebate := unmetered }, 0)
  else do
    let perByte ← mulU64 newSize s.costTable.storagePerByteCost
    let storageCost ← mulU64 perByte s.storageGasPrice
    pure ({ s with perObjectStorage := s.perObjectStorage ++ [⟨storageCost, storageRebate, newSize⟩] },
      storageCost)

/-- The entry that metering records for an object, given as its size and the rebate of
the version it replaces. -/
def entryFor (object : ℕ × ℕ) : PerObjectStorage :=
  ⟨object.1 * s.costTable.storagePerByteCost * s.storageGasPrice, object.2, object.1⟩

/-- A metered meter appends the object's entry and returns its cost; it panics only on a
size times a price that does not fit. -/
theorem trackStorageMutation_holds (hcharge : s.charge = true) (object : ℕ × ℕ) :
    Holds Panic.IsMulOverflow
      (· = ({ s with perObjectStorage := s.perObjectStorage ++ [s.entryFor object] },
        (s.entryFor object).storageCost))
      (s.trackStorageMutation object.1 object.2) := by
  simp only [trackStorageMutation, isUnmetered, hcharge, Bool.not_true, Bool.false_eq_true,
    if_false]
  refine (mulU64_holds _ _).bind fun perByte hperByte => (mulU64_holds _ _).bind fun cost hcost => ?_
  subst hperByte hcost
  exact holds_pure rfl

/-- Fails with insufficient gas when the storage cost beyond the sender's rebate exceeds the
gas left after computation. The second subtraction is checked, but its branch rules out
a borrow. -/
def chargeStorageAndRebate : Except Panic (Except ExecutionFailureStatus Unit) :=
  let storageRebate := s.storageRebate
  let storageCost := s.storageCost
  let senderRebate := senderRebate storageRebate s.rebateRate
  if senderRebate ≤ storageRebate then
    if storageCost ≤ senderRebate then .ok (.ok ())
    else do
      let gasLeft ← subU64 s.gasBudget s.computationCost
      if gasLeft < storageCost - senderRebate then pure (.error .insufficientGas)
      else pure (.ok ())
  else .error .senderRebateAboveStorageRebate

/-- The storage cost is covered by the sender's rebate and the gas left after computation. -/
def Covered : Prop :=
  s.storageCost ≤ senderRebate s.storageRebate s.rebateRate + (s.gasBudget - s.computationCost)

instance : Decidable s.Covered := inferInstanceAs (Decidable (_ ≤ _))

/-- The storage charge fails exactly when the storage cost is not covered. -/
theorem chargeStorageAndRebate_eq (hrate : s.rebateRate ≤ 10000)
    (hcomp : s.computationCost ≤ s.gasBudget) :
    s.chargeStorageAndRebate = .ok (if s.Covered then .ok () else .error .insufficientGas) := by
  unfold chargeStorageAndRebate
  dsimp only
  rw [if_pos (senderRebate_le s.storageRebate_lt hrate)]
  by_cases hcover : s.storageCost ≤ senderRebate s.storageRebate s.rebateRate
  · rw [if_pos hcover, if_pos (show s.Covered by unfold Covered; omega)]
  · rw [if_neg hcover, subU64_eq hcomp, ok_bind]
    by_cases hleft : s.gasBudget - s.computationCost <
        s.storageCost - senderRebate s.storageRebate s.rebateRate
    · rw [if_pos hleft, if_neg (show ¬s.Covered by unfold Covered; omega)]; rfl
    · rw [if_neg hleft, if_pos (show s.Covered by unfold Covered; omega)]; rfl

def adjustComputationOnOutOfGas : RtdGasStatus :=
  { s with perObjectStorage := [], computationCost := s.gasBudget }

def resetStorageCostAndRebate : RtdGasStatus :=
  { s with perObjectStorage := [], unmeteredStorageRebate := 0 }

end RtdGasStatus

namespace GasCostSummary

variable (summary : GasCostSummary)

def gasUsed : Except Panic ℕ := addU64 summary.computationCost summary.storageCost

/-- Positive for gas used, negative for a refund: both amounts are cast to `i64`. -/
def netGasUsage : Except Panic ℤ := do
  let gasUsed ← summary.gasUsed
  subI64 (toSigned 64 gasUsed) (toSigned 64 summary.storageRebate)

/-- Amounts below the sign bit give the exact difference. -/
theorem netGasUsage_eq {summary : GasCostSummary}
    (hused : summary.computationCost + summary.storageCost < 2 ^ 63)
    (hrebate : summary.storageRebate < 2 ^ 63) :
    summary.netGasUsage =
      .ok ((summary.computationCost + summary.storageCost : ℕ) - summary.storageRebate) := by
  unfold netGasUsage gasUsed
  rw [addU64_eq (by omega), ok_bind, toSigned_of_lt (by norm_num) hused,
    toSigned_of_lt (by norm_num) hrebate, subI64_eq]
  unfold InSigned
  norm_num
  omega

end GasCostSummary

/-- The new balance of the gas coin: a refund is added, a charge is asserted to be covered
and subtracted (the checked subtraction cannot borrow after the assertion). -/
def deductGas (balance : ℕ) (chargeOrRebate : ℤ) : Except Panic ℕ :=
  if chargeOrRebate < 0 then do
    let rebate ← negI64 chargeOrRebate
    addU64 balance (toUnsigned 64 rebate)
  else if toUnsigned 64 chargeOrRebate ≤ balance then
    .ok (balance - toUnsigned 64 chargeOrRebate)
  else .error .balanceBelowCharge

/-- A charge the coin covers, or a refund that keeps the coin a `u64`, goes through. -/
theorem deductGas_eq (balance : ℕ) (n : ℤ) (hlo : -2 ^ 63 < n) (hhi : n < 2 ^ 63)
    (hcover : n ≤ balance) (hfit : balance - n < 2 ^ 64) :
    ∃ b, deductGas balance n = .ok b ∧ (b : ℤ) = balance - n := by
  unfold deductGas
  split
  · have hneg : negI64 n = .ok (-n) := negI64_eq_ok.mpr ⟨by unfold InSigned; norm_num; omega, rfl⟩
    have hu : (toUnsigned 64 (-n) : ℤ) = -n := toUnsigned_of_nonneg (by omega) (by omega)
    rw [hneg, ok_bind, addU64_eq (by omega)]
    exact ⟨_, rfl, by push_cast; omega⟩
  · have hu : (toUnsigned 64 n : ℤ) = n := toUnsigned_of_nonneg (by omega) (by omega)
    rw [if_pos (by omega)]
    exact ⟨_, rfl, by omega⟩

end Rtd.Gas
