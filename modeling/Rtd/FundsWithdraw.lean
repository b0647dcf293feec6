import Rtd.OrderedMap
import Rtd.Except
import Mathlib

/-!
The funds-withdraw schedulers of address funds
(`crates/rtd-core/src/execution_scheduler/funds_withdraw_scheduler/address_funds`).
A consensus commit batch reads the accumulator at one version and hands its withdraw
transactions to `schedule_withdraws`; each transaction reserves an amount from each of its
accounts, and learns over its oneshot channel whether all of them have the funds. A
settlement bumps the accumulator version by one and reports each account's funds change.

The eager scheduler answers as soon as it knows: it keeps for each account a lower bound of
its funds and the reservations made per version, and queues a withdraw that it cannot yet
decide behind the account's earlier ones. A `PendingWithdraw` is shared (`Arc`) by the
queues of all its accounts; here the shared records are kept by the number of the
transaction's channel, the queues hold those numbers, and `delivered` is what the channels
have received, in order. The naive scheduler waits for the withdraw's version and reads the
funds at it.

Accounts are ordered, as the keys of `BTreeMap`s; a `HashMap` is an ordered map too, read
by key only. Amounts are naturals, the funds changes of a settlement integers.
-/

set_option autoImplicit false

namespace Rtd

namespace FundsWithdraw

/-- `ScheduleStatus`. -/
inductive ScheduleStatus where
  | sufficientFunds
  | insufficientFunds
  | skipSchedule
  deriving DecidableEq, Repr

/-- `ScheduleResult`. -/
structure ScheduleResult (D : Type) where
  txDigest : D
  status : ScheduleStatus
  deriving DecidableEq, Repr

variable {A D : Type} [LinearOrder A]

/-- `TxFundsWithdraw`: the amount to reserve from each account. -/
structure TxFundsWithdraw (A D : Type) [LinearOrder A] where
  txDigest : D
  reservations : OrderedMap A Nat

/-- `FundsSettlement`. -/
structure FundsSettlement (A : Type) [LinearOrder A] where
  nextAccumulatorVersion : Nat
  fundsChanges : OrderedMap A Int

/-- `PendingWithdraw`: `sender` is whether the oneshot sender is still held, and `pending`
the reservations not made yet. -/
structure PendingWithdraw (A D : Type) [LinearOrder A] where
  accumulatorVersion : Nat
  txDigest : D
  sender : Bool
  pending : OrderedMap A Nat

/-- `AccountState`; its queue holds the channel numbers of the withdraws waiting on it. -/
structure AccountState (A : Type) where
  accountId : A
  reservedFunds : OrderedMap Nat Nat
  pendingReservations : List Nat
  fundsLowerBound : Nat

/-- The `InnerState` of `EagerFundsWithdrawScheduler`, with the withdraws its queues share
and what their channels have received; `channels` counts the channels handed out. -/
structure EagerState (A D : Type) [LinearOrder A] where
  trackedAccounts : OrderedMap A (AccountState A)
  pendingSettlements : OrderedMap Nat (OrderedMap A Unit)
  accumulatorVersion : Nat
  withdraws : OrderedMap Nat (PendingWithdraw A D)
  delivered : List (Nat × ScheduleResult D)
  channels : Nat

/-- The panics of the eager scheduler. -/
inductive Panic where
  /-- `pending_amount`'s `unwrap`: no reservation is left for the account. -/
  | noPendingAmount
  /-- The `unwrap` of `pending.remove` in `commit_reservation`. -/
  | noPendingReservation
  /-- `assert!(self.funds_lower_bound >= to_reserve)`. -/
  | fundsBelowReservation
  /-- `sender.lock().take().unwrap()` in `commit_reservation`. -/
  | senderTaken
  /-- `assert!(!has_blocking_reservations)` at the withdraw's own version. -/
  | blockingReservations
  /-- `assert!(pending_withdraw.accumulator_version >= next_accumulator_version)`. -/
  | pendingBeforeVersion
  /-- "Withdraw amounts must be bounded by reservations". -/
  | withdrawExceedsReservations
  /-- `assert_eq!(next_accumulator_version, inner_state.accumulator_version.next())`. -/
  | settlementNotNext
  /-- A queued number that names no stored withdraw; the queues of the source hold the
  withdraws themselves, and `Inv.queued` shows that this never happens. -/
  | withdrawNotStored
  deriving DecidableEq, Repr

/-- `TryReserveResult`. -/
inductive TryReserveResult where
  | sufficientFunds
  | insufficientFunds
  | pending
  deriving DecidableEq, Repr

/-- A set of accounts (`BTreeSet`) extended by a list of them. -/
def extendSet (set : OrderedMap A Unit) (accounts : List A) : OrderedMap A Unit :=
  accounts.foldl (fun set a => set.insert a ⟨⟩) set

theorem mem_keys_extendSet {set : OrderedMap A Unit} {accounts : List A} {a : A} :
    a ∈ (extendSet set accounts).keys ↔ a ∈ set.keys ∨ a ∈ accounts := by
  unfold extendSet
  exact (OrderedMap.mem_keys_foldl_insert_iff (f := id) (g := fun _ => ()) set).trans (by simp)

/-! ### The eager scheduler -/

section Eager

variable (fundsRead : A → Nat → Nat)

/-- `AccountState::new`, with the funds `get_account_amount` reads at the version. -/
def AccountState.new (accountId : A) (lastSettledVersion : Nat) : AccountState A :=
  ⟨accountId, OrderedMap.empty, [], fundsRead accountId lastSettledVersion⟩

/-- `PendingWithdraw::pending_amount`. -/
def pendingAmount (p : PendingWithdraw A D) (accountId : A) : Except Panic Nat :=
  match p.pending.get? accountId with
  | some amount => .ok amount
  | none => .error .noPendingAmount

/-- `PendingWithdraw::notify_insufficient_funds`: the sender may be gone already, taken for
another account of the withdraw. -/
def notifyInsufficientFunds (n : Nat) (p : PendingWithdraw A D)
    (delivered : List (Nat × ScheduleResult D)) :
    PendingWithdraw A D × List (Nat × ScheduleResult D) :=
  if p.sender then ({ p with sender := false }, delivered ++ [(n, ⟨p.txDigest, .insufficientFunds⟩)])
  else (p, delivered)

/-- `AccountState::commit_reservation`. -/
def commitReservation (accountState : AccountState A) (n : Nat) (p : PendingWithdraw A D)
    (delivered : List (Nat × ScheduleResult D)) :
    Except Panic (AccountState A × PendingWithdraw A D × List (Nat × ScheduleResult D)) := do
  let toReserve ← match p.pending.get? accountState.accountId with
    | some amount => pure amount
    | none => throw .noPendingReservation
  let pending := p.pending.erase accountState.accountId
  if accountState.fundsLowerBound < toReserve then throw .fundsBelowReservation
  let accountState := { accountState with
    fundsLowerBound := accountState.fundsLowerBound - toReserve
    reservedFunds := accountState.reservedFunds.insert p.accumulatorVersion
      (accountState.reservedFunds.entry p.accumulatorVersion 0 + toReserve) }
  if pending.entries.isEmpty then
    if !p.sender then throw .senderTaken
    pure (accountState, { p with pending, sender := false },
      delivered ++ [(n, ⟨p.txDigest, .sufficientFunds⟩)])
  else pure (accountState, { p with pending }, delivered)

/-- `AccountState::try_reserve`. -/
def tryReserve (curAccumulatorVersion : Nat) (accountState : AccountState A) (n : Nat)
    (p : PendingWithdraw A D) (hasBlockingReservations : Bool)
    (delivered : List (Nat × ScheduleResult D)) :
    Except Panic (TryReserveResult × AccountState A × PendingWithdraw A D ×
      List (Nat × ScheduleResult D)) := do
  let toReserve ← pendingAmount p accountState.accountId
  let insufficientFunds := decide (toReserve > accountState.fundsLowerBound)
  if insufficientFunds || hasBlockingReservations then
    if curAccumulatorVersion = p.accumulatorVersion then
      if hasBlockingReservations then throw .blockingReservations
      let (p, delivered) := notifyInsufficientFunds n p delivered
      pure (.insufficientFunds, accountState, p, delivered)
    else pure (.pending, accountState, p, delivered)
  else
    let (accountState, p, delivered) ← commitReservation accountState n p delivered
    pure (.sufficientFunds, accountState, p, delivered)

/-- The loop of `schedule_withdraws` over the accounts of one withdraw, number `n`: each
account is tracked from its funds at the current version if it is not yet, and the withdraw
waits in its queue where it cannot be decided. -/
def reserveAccounts (cur n : Nat) :
    List A → PendingWithdraw A D → EagerState A D →
      Except Panic (PendingWithdraw A D × EagerState A D)
  | [], p, s => .ok (p, s)
  | accountId :: accounts, p, s => do
    let accountState := (s.trackedAccounts.get? accountId).getD
      (AccountState.new fundsRead accountId cur)
    let hasBlockingReservations := !accountState.pendingReservations.isEmpty
    let (result, accountState, p, delivered) ←
      tryReserve cur accountState n p hasBlockingReservations s.delivered
    let accountState := if result = .pending then
        { accountState with pendingReservations := accountState.pendingReservations ++ [n] }
      else accountState
    reserveAccounts cur n accounts p
      { s with trackedAccounts := s.trackedAccounts.insert accountId accountState, delivered }

/-- The loop of `schedule_withdraws` over the withdraws of the batch, at version `v`; each
withdraw takes the next channel. -/
def scheduleEach (v cur : Nat) :
    List (TxFundsWithdraw A D) → EagerState A D → Except Panic (EagerState A D)
  | [], s => .ok s
  | withdraw :: withdraws, s => do
    let accounts := withdraw.reservations.keys
    let n := s.channels
    let s := { s with
      pendingSettlements := s.pendingSettlements.insert v
        (extendSet (s.pendingSettlements.entry v OrderedMap.empty) accounts)
      channels := n + 1 }
    let (p, s) ← reserveAccounts fundsRead cur n accounts ⟨v, withdraw.txDigest, true,
      withdraw.reservations⟩ s
    scheduleEach v cur withdraws { s with withdraws := s.withdraws.insert n p }

/-- `WithdrawReservations::notify_skip_schedule`: every transaction of the batch is told to
skip, over the next channels. -/
def notifySkipSchedule (withdraws : List (TxFundsWithdraw A D)) (s : EagerState A D) :
    EagerState A D :=
  { s with
    delivered := s.delivered ++
      (withdraws.zipIdx s.channels).map fun wi => (wi.2, ⟨wi.1.txDigest, .skipSchedule⟩)
    channels := s.channels + withdraws.length }

/-- `EagerFundsWithdrawScheduler::schedule_withdraws`. -/
def scheduleWithdraws (accumulatorVersion : Nat) (withdraws : List (TxFundsWithdraw A D))
    (s : EagerState A D) : Except Panic (EagerState A D) :=
  if accumulatorVersion < s.accumulatorVersion then .ok (notifySkipSchedule withdraws s)
  else scheduleEach fundsRead accumulatorVersion s.accumulatorVersion withdraws s

/-- The loop of `settle_funds` over an account's queue at the new version `next`: each
withdraw is tried again, and the first that must still wait goes back to the front. -/
def retryPendingReservations (next : Nat) (accountState : AccountState A) :
    List Nat → EagerState A D → Except Panic (AccountState A × EagerState A D)
  | [], s => .ok ({ accountState with pendingReservations := [] }, s)
  | n :: queue, s =>
    match s.withdraws.get? n with
    | none => .error .withdrawNotStored
    | some p => do
      if p.accumulatorVersion < next then throw .pendingBeforeVersion
      let (result, accountState, p, delivered) ←
        tryReserve next accountState n p false s.delivered
      let s := { s with withdraws := s.withdraws.insert n p, delivered }
      if result = .pending then .ok ({ accountState with pendingReservations := n :: queue }, s)
      else retryPendingReservations next accountState queue s

/-- One affected account of `settle_funds`: its reservations at the settled version come
back with the settled change, its queue is tried again, and an account left with nothing
is no longer tracked. -/
def settleAccount (cleanupVersion next : Nat) (fundsChanges : OrderedMap A Int)
    (objectId : A) (s : EagerState A D) : Except Panic (EagerState A D) :=
  match s.trackedAccounts.get? objectId with
  | none => .ok s
  | some accountState => do
    let reserved : Int := accountState.reservedFunds.entry cleanupVersion 0
    let settled := fundsChanges.entry objectId 0
    let net := reserved + settled
    if net < 0 then throw .withdrawExceedsReservations
    let accountState := { accountState with
      reservedFunds := accountState.reservedFunds.erase cleanupVersion
      fundsLowerBound := accountState.fundsLowerBound + net.toNat }
    let (accountState, s) ←
      retryPendingReservations next accountState accountState.pendingReservations s
    if accountState.reservedFunds.entries.isEmpty && accountState.pendingReservations.isEmpty then
      pure { s with trackedAccounts := s.trackedAccounts.erase objectId }
    else pure { s with trackedAccounts := s.trackedAccounts.insert objectId accountState }

/-- The loop of `settle_funds` over the affected accounts, in increasing order. -/
def settleAccounts (cleanupVersion next : Nat) (fundsChanges : OrderedMap A Int) :
    List A → EagerState A D → Except Panic (EagerState A D)
  | [], s => .ok s
  | objectId :: accounts, s => do
    let s ← settleAccount cleanupVersion next fundsChanges objectId s
    settleAccounts cleanupVersion next fundsChanges accounts s

/-- `EagerFundsWithdrawScheduler::settle_funds`: the accounts affected are those with
withdraws at the settled version, those with withdraws at the new one, and those the
settlement changes. -/
def settleFunds (settlement : FundsSettlement A) (s : EagerState A D) :
    Except Panic (EagerState A D) := do
  let next := settlement.nextAccumulatorVersion
  if next ≤ s.accumulatorVersion then return s
  if next ≠ s.accumulatorVersion + 1 then throw .settlementNotNext
  let cleanupVersion := s.accumulatorVersion
  let affectedAccounts := extendSet
    (extendSet (s.pendingSettlements.entry cleanupVersion OrderedMap.empty)
      (s.pendingSettlements.entry next OrderedMap.empty).keys)
    settlement.fundsChanges.keys
  settleAccounts cleanupVersion next settlement.fundsChanges affectedAccounts.keys
    { s with
      accumulatorVersion := next
      pendingSettlements := s.pendingSettlements.erase cleanupVersion }

/-- `EagerFundsWithdrawScheduler::new`. -/
def EagerState.new (startingAccumulatorVersion : Nat) : EagerState A D :=
  ⟨OrderedMap.empty, OrderedMap.empty, startingAccumulatorVersion, OrderedMap.empty, [], 0⟩

/-- `close_epoch`: no withdraw is left to settle and no account tracked. -/
def closeEpoch (s : EagerState A D) : Bool :=
  s.pendingSettlements.entries.isEmpty && s.trackedAccounts.entries.isEmpty

/-! ### Making a reservation -/

section Reserve

/-- What making the reservation of account `a` does to withdraw `n`: the account leaves its
pending reservations, and the last one sends `SufficientFunds`. -/
def takeReservation (a : A) (n : Nat) (p : PendingWithdraw A D)
    (delivered : List (Nat × ScheduleResult D)) :
    PendingWithdraw A D × List (Nat × ScheduleResult D) :=
  if (p.pending.erase a).entries = [] then
    ({ p with pending := p.pending.erase a, sender := false },
      delivered ++ [(n, ⟨p.txDigest, .sufficientFunds⟩)])
  else ({ p with pending := p.pending.erase a }, delivered)

variable {acct acct' : AccountState A} {n : Nat} {p p' : PendingWithdraw A D}
  {dl dl' : List (Nat × ScheduleResult D)}

@[simp] theorem notifyInsufficientFunds_fst :
    (notifyInsufficientFunds n p dl).1 = { p with sender := false } := by
  unfold notifyInsufficientFunds
  split_ifs with hs
  · rfl
  · cases p
    simp_all

@[simp] theorem takeReservation_pending {a : A} :
    (takeReservation a n p dl).1.pending = p.pending.erase a := by
  unfold takeReservation
  split_ifs <;> rfl

@[simp] theorem takeReservation_version {a : A} :
    (takeReservation a n p dl).1.accumulatorVersion = p.accumulatorVersion := by
  unfold takeReservation
  split_ifs <;> rfl

/-- The sender stays only while some reservation is still to be made. -/
theorem takeReservation_sender {a : A} :
    (takeReservation a n p dl).1.sender = true ↔
      p.sender = true ∧ (p.pending.erase a).entries ≠ [] := by
  unfold takeReservation
  split_ifs with h <;> simp [h]

theorem commitReservation_eq_ok
    (h : commitReservation acct n p dl = .ok (acct', p', dl')) :
    (∃ amount, p.pending.get? acct.accountId = some amount ∧ amount ≤ acct.fundsLowerBound) ∧
      ((p.pending.erase acct.accountId).entries = [] → p.sender = true) ∧
      acct'.accountId = acct.accountId ∧ acct'.pendingReservations = acct.pendingReservations ∧
      (p', dl') = takeReservation acct.accountId n p dl := by
  unfold commitReservation at h
  cases hget : p.pending.get? acct.accountId with
  | none => simp [hget] at h
  | some amount =>
    by_cases hlt : acct.fundsLowerBound < amount
    · simp [hget, hlt] at h
    have hle : amount ≤ acct.fundsLowerBound := Nat.not_lt.1 hlt
    by_cases hempty : (p.pending.erase acct.accountId).entries = []
    · cases hs : p.sender
      · simp [hget, hlt, hempty, hs] at h
      · simp only [hget, hlt, hempty, hs, pure_bind, if_false, List.isEmpty_nil, if_true,
          Bool.not_true, Bool.false_eq_true, Except.pure_eq_ok, Prod.mk.injEq] at h
        obtain ⟨rfl, rfl, rfl⟩ := h
        exact ⟨⟨amount, rfl, hle⟩, fun _ => rfl, rfl, rfl, by simp [takeReservation, hempty]⟩
    · have hne : (p.pending.erase acct.accountId).entries.isEmpty = false := by
        simpa using hempty
      simp only [hget, hlt, hne, pure_bind, if_false, Bool.false_eq_true, Except.pure_eq_ok,
        Prod.mk.injEq] at h
      obtain ⟨rfl, rfl, rfl⟩ := h
      exact ⟨⟨amount, rfl, hle⟩, fun h => absurd h hempty, rfl, rfl, by simp [takeReservation, hempty]⟩

theorem commitReservation_ok {amount : Nat} (hget : p.pending.get? acct.accountId = some amount)
    (hle : amount ≤ acct.fundsLowerBound)
    (hsender : (p.pending.erase acct.accountId).entries = [] → p.sender = true) :
    ∃ r, commitReservation acct n p dl = .ok r := by
  unfold commitReservation
  by_cases hempty : (p.pending.erase acct.accountId).entries = []
  · simp [hget, Nat.not_lt.2 hle, hempty, hsender hempty]
  · have hne : (p.pending.erase acct.accountId).entries.isEmpty = false := by simpa using hempty
    simp [hget, Nat.not_lt.2 hle, hne]

theorem tryReserve_cases {cur : Nat} {b : Bool} {r : TryReserveResult}
    (h : tryReserve cur acct n p b dl = .ok (r, acct', p', dl')) :
    (∃ amount, p.pending.get? acct.accountId = some amount) ∧
      acct'.accountId = acct.accountId ∧ acct'.pendingReservations = acct.pendingReservations ∧
      ((r = .pending ∧ cur ≠ p.accumulatorVersion ∧ p' = p ∧ dl' = dl) ∨
       (r = .insufficientFunds ∧ cur = p.accumulatorVersion ∧ b = false ∧
          (p', dl') = notifyInsufficientFunds n p dl) ∨
       (r = .sufficientFunds ∧ b = false ∧
          ((p.pending.erase acct.accountId).entries = [] → p.sender = true) ∧
          (p', dl') = takeReservation acct.accountId n p dl)) := by
  unfold tryReserve pendingAmount at h
  cases hget : p.pending.get? acct.accountId with
  | none => simp [hget] at h
  | some amount =>
    refine ⟨⟨amount, rfl⟩, ?_⟩
    by_cases hwait : (decide (amount > acct.fundsLowerBound) || b) = true
    · by_cases hcur : cur = p.accumulatorVersion
      · cases b
        · simp only [hget, hwait, hcur, Except.ok_bind, if_true, Bool.false_eq_true, if_false,
            Except.pure_eq_ok, Prod.mk.injEq] at h
          obtain ⟨rfl, rfl, hp, hd⟩ := h
          exact ⟨rfl, rfl, .inr (.inl ⟨rfl, hcur, rfl, by rw [← hp, ← hd]⟩)⟩
        · simp [hget, hcur] at h
      · simp only [hget, hwait, hcur, Except.ok_bind, if_true, if_false, Except.pure_eq_ok,
          Prod.mk.injEq] at h
        obtain ⟨rfl, rfl, rfl, rfl⟩ := h
        exact ⟨rfl, rfl, .inl ⟨rfl, hcur, rfl, rfl⟩⟩
    · have hb : b = false := by simp_all
      subst hb
      simp only [hget, hwait, Except.ok_bind, Bool.false_eq_true, if_false] at h
      obtain ⟨⟨acct'', p'', dl''⟩, hcommit, h⟩ := Except.bind_eq_ok.1 h
      simp only [Except.pure_eq_ok, Prod.mk.injEq] at h
      obtain ⟨rfl, rfl, rfl, rfl⟩ := h
      obtain ⟨-, hsender, hid, hqueue, hp⟩ := commitReservation_eq_ok hcommit
      exact ⟨hid, hqueue, .inr (.inr ⟨rfl, rfl, hsender, hp⟩)⟩

theorem tryReserve_ok {cur : Nat} {b : Bool}
    (hmem : ∃ amount, p.pending.get? acct.accountId = some amount)
    (hblock : b = true → cur ≠ p.accumulatorVersion)
    (hsender : (p.pending.erase acct.accountId).entries = [] → p.sender = true) :
    ∃ r, tryReserve cur acct n p b dl = .ok r := by
  obtain ⟨amount, hget⟩ := hmem
  unfold tryReserve pendingAmount
  by_cases hwait : (decide (amount > acct.fundsLowerBound) || b) = true
  · by_cases hcur : cur = p.accumulatorVersion
    · have hb : b = false := by
        cases b
        · rfl
        · exact absurd hcur (hblock rfl)
      subst hb
      simp only [hget, hwait, hcur, Except.ok_bind, if_true, Bool.false_eq_true, if_false]
      exact ⟨_, rfl⟩
    · simp only [hget, hwait, hcur, Except.ok_bind, if_true, if_false]
      exact ⟨_, rfl⟩
  · have hb : b = false := by simp_all
    have hle : amount ≤ acct.fundsLowerBound := by simp_all
    subst hb
    obtain ⟨r, hr⟩ : ∃ r, commitReservation acct n p dl = .ok r :=
      commitReservation_ok hget hle hsender
    simp only [hget, hwait, Except.ok_bind, Bool.false_eq_true, if_false, hr]
    exact ⟨_, rfl⟩

end Reserve

end Eager

/-! ### The naive scheduler -/

section Naive

variable (fundsRead : A → Nat → Nat)

/-- The naive scheduler's loop over the reservations of one withdraw: each account's
remaining funds are read at the version the first time, and a reservation they cover is
taken from them; the withdraw succeeds when every one is covered. -/
def naiveReserve (v : Nat) :
    List (A × Nat) → OrderedMap A Nat → Bool → Bool × OrderedMap A Nat
  | [], curFunds, success => (success, curFunds)
  | (objectId, reservation) :: rest, curFunds, success =>
    let entry := (curFunds.get? objectId).getD (fundsRead objectId v)
    if entry < reservation then naiveReserve v rest (curFunds.insert objectId entry) false
    else naiveReserve v rest (curFunds.insert objectId (entry - reservation)) success

/-- The naive scheduler's loop over the withdraws of a batch. -/
def naiveScheduleEach (v : Nat) :
    List (TxFundsWithdraw A D) → OrderedMap A Nat → List (ScheduleResult D)
  | [], _ => []
  | withdraw :: withdraws, curFunds =>
    let (success, curFunds) := naiveReserve fundsRead v withdraw.reservations.entries curFunds true
    ⟨withdraw.txDigest, if success then .sufficientFunds else .insufficientFunds⟩ ::
      naiveScheduleEach v withdraws curFunds

/-- `NaiveFundsWithdrawScheduler::schedule_withdraws` at the accumulator version
`accumulatorVersion`: the call waits (`none`) until the withdraws' version is settled. -/
def naiveScheduleWithdraws (accumulatorVersion v : Nat) (withdraws : List (TxFundsWithdraw A D)) :
    Option (List (ScheduleResult D)) :=
  if accumulatorVersion < v then none
  else if v < accumulatorVersion then
    some (withdraws.map fun withdraw => ⟨withdraw.txDigest, .skipSchedule⟩)
  else some (naiveScheduleEach fundsRead v withdraws OrderedMap.empty)

end Naive

/-- `NaiveFundsWithdrawScheduler::settle_funds`: the new accumulator version. -/
def naiveSettleFunds (accumulatorVersion : Nat) (settlement : FundsSettlement A) :
    Except Panic Nat :=
  let nextVersion := accumulatorVersion + 1
  if settlement.nextAccumulatorVersion < nextVersion then .ok accumulatorVersion
  else if nextVersion ≠ settlement.nextAccumulatorVersion then .error .settlementNotNext
  else .ok nextVersion

end FundsWithdraw

end Rtd
