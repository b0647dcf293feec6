import Rtd.FundsWithdraw
import Mathlib

/-!
The invariant of the eager funds withdraw scheduler, and the lemmas that carry it through one
attempt to reserve.

`Inv'` says where each undecided withdraw waits: in the queue of every account it still has
to reserve from, behind earlier versions, with a version ahead of the accumulator; and what
each channel has received, by `Delivery`. Inside the loops two relaxations are needed, the
accounts still `due` to be settled at the new version and the (withdraw, account) pairs still
`todo` in the loop of `schedule_withdraws`.

Both loops of the scheduler try a withdraw on an account and then queue it there or not:
`Outcome` is what `try_reserve` does to the withdraw, and `Inv'.attempt` carries the invariant
through it once for both.
-/

set_option autoImplicit false

namespace Rtd

namespace FundsWithdraw

variable {A D : Type} [LinearOrder A]

/-- Withdraw `n` waits in the queue of account `a`. -/
def Queued (tracked : OrderedMap A (AccountState A)) (n : Nat) (a : A) : Prop :=
  ∃ accountState, tracked.get? a = some accountState ∧ n ∈ accountState.pendingReservations

/-- The version a stored withdraw reads. -/
def versionOf (withdraws : OrderedMap Nat (PendingWithdraw A D)) (n : Nat) : Nat :=
  ((withdraws.get? n).map (·.accumulatorVersion)).getD 0

/-- What channel `n` has received, in order. -/
def received (delivered : List (Nat × ScheduleResult D)) (n : Nat) : List (ScheduleResult D) :=
  (delivered.filter (·.1 = n)).map (·.2)

/-- No stored withdraw reads a version beyond `v`. -/
def Bounded (v : Nat) (withdraws : OrderedMap Nat (PendingWithdraw A D)) : Prop :=
  ∀ m q, withdraws.get? m = some q → q.accumulatorVersion ≤ v

theorem Bounded.insert {v n : Nat} {withdraws : OrderedMap Nat (PendingWithdraw A D)}
    {p : PendingWithdraw A D} (h : Bounded v withdraws) (hp : p.accumulatorVersion ≤ v) :
    Bounded v (withdraws.insert n p) := by
  intro m q hq
  rcases OrderedMap.get?_insert_eq_some.1 hq with ⟨-, rfl⟩ | ⟨-, hq⟩
  · exact hp
  · exact h m q hq

section Updates

variable {tracked : OrderedMap A (AccountState A)} {n m : Nat} {a b : A}

theorem queued_insert (accountState : AccountState A) :
    Queued (tracked.insert a accountState) n b ↔
      if b = a then n ∈ accountState.pendingReservations else Queued tracked n b := by
  unfold Queued
  split_ifs with hb
  · subst hb
    simp
  · simp [OrderedMap.get?_insert_of_ne _ _ hb]

theorem queued_erase : Queued (tracked.erase a) n b ↔ b ≠ a ∧ Queued tracked n b := by
  unfold Queued
  by_cases hb : b = a
  · subst hb
    simp
  · simp [OrderedMap.get?_erase_of_ne _ hb, hb]

theorem received_append (l l' : List (Nat × ScheduleResult D)) :
    received (l ++ l') n = received l n ++ received l' n := by
  simp [received]

theorem received_cons (l : List (Nat × ScheduleResult D)) (r : ScheduleResult D) :
    received ((m, r) :: l) n = if n = m then r :: received l n else received l n := by
  unfold received
  split_ifs with h
  · subst h
    simp
  · simp [Ne.symm h]

theorem received_concat (delivered : List (Nat × ScheduleResult D)) (r : ScheduleResult D) :
    received (delivered ++ [(m, r)]) n =
      if n = m then received delivered n ++ [r] else received delivered n := by
  unfold received
  split_ifs with h
  · subst h
    simp
  · simp [Ne.symm h]

theorem versionOf_insert (withdraws : OrderedMap Nat (PendingWithdraw A D))
    (p : PendingWithdraw A D) :
    versionOf (withdraws.insert m p) n = if n = m then p.accumulatorVersion else versionOf withdraws n := by
  unfold versionOf
  split_ifs with h
  · subst h
    simp
  · simp [OrderedMap.get?_insert_of_ne _ _ h]

/-- The skips of a batch numbered from channel `c` reach each channel of the batch once. -/
theorem received_skips (ws : List (TxFundsWithdraw A D)) (c : Nat) :
    (n < c ∨ c + ws.length ≤ n → received ((ws.zipIdx c).map fun wi =>
        (wi.2, (⟨wi.1.txDigest, .skipSchedule⟩ : ScheduleResult D))) n = []) ∧
      (c ≤ n → n < c + ws.length → ∃ d, received ((ws.zipIdx c).map fun wi =>
        (wi.2, (⟨wi.1.txDigest, .skipSchedule⟩ : ScheduleResult D))) n = [⟨d, .skipSchedule⟩]) := by
  induction ws generalizing c with
  | nil => exact ⟨fun _ => rfl, fun h h' => absurd h' (by simpa using h)⟩
  | cons w ws ih =>
    simp only [List.zipIdx_cons, List.map_cons, received_cons, List.length_cons]
    refine ⟨fun hn => ?_, fun hc hn => ?_⟩
    · have hne : n ≠ c := by omega
      rw [if_neg hne]
      exact (ih (c + 1)).1 (by omega)
    · by_cases hnc : n = c
      · rw [if_pos hnc, (ih (c + 1)).1 (by omega)]
        exact ⟨w.txDigest, rfl⟩
      · rw [if_neg hnc]
        exact (ih (c + 1)).2 (by omega) (by omega)

end Updates

/-- Each channel received what its withdraw's sender says: nothing while the withdraw is
undecided, one answer once it is decided, and a skip for a transaction whose version was
already settled. -/
structure Delivery (s : EagerState A D) : Prop where
  stored : ∀ n p, s.withdraws.get? n = some p →
    (p.sender = true ∧ received s.delivered n = []) ∨
      (p.sender = false ∧ ∃ status, status ≠ .skipSchedule ∧
        received s.delivered n = [⟨p.txDigest, status⟩])
  skipped : ∀ n, s.withdraws.get? n = none → n < s.channels →
    ∃ d, received s.delivered n = [⟨d, .skipSchedule⟩]
  fresh : ∀ n, s.channels ≤ n → received s.delivered n = []
  stored_lt : ∀ n p, s.withdraws.get? n = some p → n < s.channels

theorem Delivery.of_eq {s s' : EagerState A D} (h : Delivery s) (hw : s'.withdraws = s.withdraws)
    (hd : s'.delivered = s.delivered) (hc : s'.channels = s.channels) : Delivery s' := by
  obtain ⟨h₁, h₂, h₃, h₄⟩ := h
  refine ⟨?_, ?_, ?_, ?_⟩ <;> simp only [hw, hd, hc] <;> assumption

/-- The invariant of the eager scheduler, with the accounts still `due` to be settled at the
current version and the reservations still `todo` in a loop of `schedule_withdraws`. -/
structure Inv' (due : A → Prop) (todo : Nat → A → Prop) (s : EagerState A D) : Prop where
  accountId : ∀ a accountState, s.trackedAccounts.get? a = some accountState →
    accountState.accountId = a
  nodup : ∀ a accountState, s.trackedAccounts.get? a = some accountState →
    accountState.pendingReservations.Nodup
  sorted : ∀ a accountState, s.trackedAccounts.get? a = some accountState →
    accountState.pendingReservations.Pairwise fun m n =>
      versionOf s.withdraws m ≤ versionOf s.withdraws n
  /-- A queued withdraw is stored, still has to reserve from the account, is recorded for
  settlement at its version, and reads a version ahead, or the current one while the
  account is due. -/
  queued : ∀ n a, Queued s.trackedAccounts n a → ∃ p, s.withdraws.get? n = some p ∧
      a ∈ p.pending.keys ∧
      a ∈ (s.pendingSettlements.entry p.accumulatorVersion OrderedMap.empty).keys ∧
      (s.accumulatorVersion < p.accumulatorVersion ∨
        s.accumulatorVersion = p.accumulatorVersion ∧ due a)
  /-- An undecided withdraw waits on each account it still has to reserve from. -/
  waiting : ∀ n p, s.withdraws.get? n = some p → p.sender = true →
    p.pending.keys ≠ [] ∧ ∀ a ∈ p.pending.keys, Queued s.trackedAccounts n a ∨ todo n a
  /-- A decided withdraw reserved everything, or keeps an account it waits on nowhere. -/
  decided : ∀ n p, s.withdraws.get? n = some p → p.sender = false →
    p.pending.keys = [] ∨
      ∃ b ∈ p.pending.keys, ¬Queued s.trackedAccounts n b ∧ ¬todo n b
  /-- Ahead of the accumulator, a withdraw can only be decided by its last reservation. -/
  ahead : ∀ n p, s.withdraws.get? n = some p → s.accumulatorVersion < p.accumulatorVersion →
    p.sender = false → p.pending.keys = []
  delivery : Delivery s

/-- The invariant between calls. -/
abbrev Inv (s : EagerState A D) : Prop := Inv' (fun _ => False) (fun _ _ => False) s

/-! ### Deciding a withdraw -/

section Decide

variable {n m : Nat} {a : A} {p p' : PendingWithdraw A D} {dl dl' : List (Nat × ScheduleResult D)}

/-- How one attempt to reserve may change withdraw `n` and the channels: version and digest
stay, a sender once gone stays gone, and the channel receives one answer, not a skip, when
the sender goes, and nothing otherwise. -/
structure Decides (n : Nat) (p p' : PendingWithdraw A D)
    (dl dl' : List (Nat × ScheduleResult D)) : Prop where
  version : p'.accumulatorVersion = p.accumulatorVersion
  txDigest : p'.txDigest = p.txDigest
  kept : p.sender = false → p'.sender = false ∧ dl' = dl
  waits : p.sender = true → p'.sender = true → dl' = dl
  sends : p.sender = true → p'.sender = false →
    ∃ status, status ≠ .skipSchedule ∧ dl' = dl ++ [(n, ⟨p.txDigest, status⟩)]

theorem decides_rfl : Decides n p p dl dl :=
  ⟨rfl, rfl, fun h => ⟨h, rfl⟩, fun _ _ => rfl, fun h h' => absurd (h.symm.trans h') (by simp)⟩

theorem decides_notify : Decides n p (notifyInsufficientFunds n p dl).1 dl
    (notifyInsufficientFunds n p dl).2 := by
  unfold notifyInsufficientFunds
  cases hs : p.sender
  · exact ⟨rfl, rfl, fun _ => ⟨hs, rfl⟩, fun h => absurd h (by simp [hs]),
      fun h => absurd h (by simp [hs])⟩
  · exact ⟨rfl, rfl, fun h => absurd h (by simp [hs]), fun _ h => absurd h (by simp),
      fun _ _ => ⟨.insufficientFunds, by simp, rfl⟩⟩

theorem decides_take (hsender : (p.pending.erase a).entries = [] → p.sender = true) :
    Decides n p (takeReservation a n p dl).1 dl (takeReservation a n p dl).2 := by
  unfold takeReservation
  by_cases hempty : (p.pending.erase a).entries = []
  · have hs := hsender hempty
    simp only [hempty, if_true]
    exact ⟨rfl, rfl, fun h => absurd (hs.symm.trans h) (by simp), fun _ h => absurd h (by simp),
      fun _ _ => ⟨.sufficientFunds, by simp, rfl⟩⟩
  · simp only [hempty, if_false]
    exact ⟨rfl, rfl, fun h => ⟨h, rfl⟩, fun _ _ => rfl, fun h h' => absurd (h.symm.trans h') (by simp)⟩

/-- An attempt on withdraw `n` keeps what every other channel received. -/
theorem received_of_decides (hd : Decides n p p' dl dl') (hm : m ≠ n) :
    received dl' m = received dl m := by
  cases hs : p.sender
  · rw [(hd.kept hs).2]
  · cases hs' : p'.sender
    · obtain ⟨status, -, rfl⟩ := hd.sends hs hs'
      rw [received_concat, if_neg hm]
    · rw [hd.waits hs hs']

/-- The channels stay as the senders say through an attempt on a stored withdraw. -/
theorem Delivery.decide {s : EagerState A D} (h : Delivery s) (hn : s.withdraws.get? n = some p)
    (hd : Decides n p p' s.delivered dl') :
    Delivery { s with withdraws := s.withdraws.insert n p', delivered := dl' } := by
  refine ⟨fun k q hk => ?_, fun k hk hlt => ?_, fun k hk => ?_, fun k q hk => ?_⟩
  · by_cases hkn : k = n
    · subst hkn
      simp only [OrderedMap.get?_insert_self, Option.some.injEq] at hk
      subst hk
      rcases h.stored k p hn with ⟨hs, hnil⟩ | ⟨hs, status, hst, hone⟩
      · cases hs' : p'.sender
        · obtain ⟨status, hst, rfl⟩ := hd.sends hs hs'
          refine .inr ⟨rfl, status, hst, ?_⟩
          simp [received_concat, hnil, hd.txDigest]
        · exact .inl ⟨rfl, by rw [hd.waits hs hs', hnil]⟩
      · obtain ⟨hs', rfl⟩ := hd.kept hs
        exact .inr ⟨hs', status, hst, by rw [hone, hd.txDigest]⟩
    · rw [OrderedMap.get?_insert_of_ne _ _ hkn] at hk
      simpa only [received_of_decides hd hkn] using h.stored k q hk
  · have hkn : k ≠ n := by
      rintro rfl
      simp at hk
    rw [OrderedMap.get?_insert_of_ne _ _ hkn] at hk
    simpa only [received_of_decides hd hkn] using h.skipped k hk hlt
  · have hkn : k ≠ n := by
      rintro rfl
      have := h.stored_lt k p hn
      simp only at hk
      omega
    simpa only [received_of_decides hd hkn] using h.fresh k hk
  · by_cases hkn : k = n
    · exact hkn ▸ h.stored_lt n p hn
    · rw [OrderedMap.get?_insert_of_ne _ _ hkn] at hk
      exact h.stored_lt k q hk

end Decide

/-! ### One attempt to reserve

Both loops of the scheduler try a withdraw on an account and then either queue it there or
not. `Outcome` is what such an attempt does to the withdraw, read off `try_reserve`; the
invariant is then carried through an attempt once, by `Inv'.attempt`. -/

section Attempt

variable {cur n : Nat} {a : A} {r : TryReserveResult} {p p' : PendingWithdraw A D}
  {dl dl' : List (Nat × ScheduleResult D)}

/-- What an attempt of withdraw `n` on account `a` at version `cur` does to the withdraw. -/
structure Outcome (cur : Nat) (a : A) (n : Nat) (r : TryReserveResult)
    (p p' : PendingWithdraw A D) (dl dl' : List (Nat × ScheduleResult D)) : Prop where
  decides : Decides n p p' dl dl'
  mem : a ∈ p.pending.keys
  sub : ∀ c ∈ p'.pending.keys, c ∈ p.pending.keys
  keep : ∀ c ∈ p.pending.keys, c ≠ a → c ∈ p'.pending.keys
  /-- A withdraw that must wait is left as it was, and reads another version. -/
  pending : r = .pending → cur ≠ p.accumulatorVersion ∧ p' = p
  /-- Otherwise the account is done with: reserved, or the withdraw is decided. -/
  waits : r ≠ .pending → p'.sender = true →
    p.sender = true ∧ p'.pending.keys ≠ [] ∧ a ∉ p'.pending.keys
  stuck : r ≠ .pending → p'.sender = false →
    p'.pending.keys = [] ∨ p.sender = false ∨ a ∈ p'.pending.keys
  /-- Only the last reservation decides a withdraw ahead of the version. -/
  early : r ≠ .pending → cur < p.accumulatorVersion → p'.sender = false →
    p'.pending.keys = [] ∨ p.sender = false

variable {acct acct' : AccountState A} {b : Bool}

/-- A reservation that leaves some to make cannot take a sender that was there. -/
theorem sender_of_take_ne (hs : (takeReservation a n p dl).1.sender = false)
    (hne : (p.pending.erase a).entries ≠ []) : p.sender = false := by
  cases hp : p.sender
  · rfl
  · simp [takeReservation_sender.2 ⟨hp, hne⟩] at hs

theorem tryReserve_outcome (h : tryReserve cur acct n p b dl = .ok (r, acct', p', dl')) :
    Outcome cur acct.accountId n r p p' dl dl' := by
  obtain ⟨⟨amount, hget⟩, -, -, hcases⟩ := tryReserve_cases h
  have hmem : acct.accountId ∈ p.pending.keys := OrderedMap.mem_keys.2 ⟨amount, hget⟩
  rcases hcases with ⟨rfl, hcur, rfl, rfl⟩ | ⟨rfl, hcur, -, hpd⟩ | ⟨rfl, -, hsender, hpd⟩
  case inl =>
    exact ⟨decides_rfl, hmem, fun _ hc => hc, fun _ hc _ => hc, fun _ => ⟨hcur, rfl⟩,
      fun h => absurd rfl h, fun h => absurd rfl h, fun h => absurd rfl h⟩
  case inr.inl =>
    -- insufficient funds at the withdraw's own version: decided, and the account kept
    obtain ⟨hp, hd⟩ := Prod.ext_iff.1 hpd
    dsimp only at hp hd
    subst hp hd
    have hdec : Decides n p (notifyInsufficientFunds n p dl).1 dl
        (notifyInsufficientFunds n p dl).2 := decides_notify
    rw [notifyInsufficientFunds_fst] at hdec ⊢
    refine ⟨hdec, hmem, fun _ hc => hc, fun _ hc _ => hc, fun h => absurd h (by simp),
      fun _ h => absurd h (by simp), fun _ _ => .inr (.inr hmem), fun _ hlt => absurd hcur hlt.ne⟩
  case inr.inr =>
    obtain ⟨hp, hd⟩ := Prod.ext_iff.1 hpd
    dsimp only at hp hd
    subst hp hd
    refine ⟨decides_take hsender, hmem, fun c hc => ?_, fun c hc hca => ?_,
      fun h => absurd h (by simp), fun _ hs => ?_, fun _ hs => ?_, fun _ _ hs => ?_⟩
    · rw [takeReservation_pending] at hc
      exact (OrderedMap.mem_keys_erase.1 hc).2
    · rw [takeReservation_pending]
      exact OrderedMap.mem_keys_erase.2 ⟨hca, hc⟩
    · obtain ⟨hs, hne⟩ := takeReservation_sender.1 hs
      rw [takeReservation_pending, Ne, OrderedMap.keys_eq_nil_iff]
      exact ⟨hs, hne, fun h => (OrderedMap.mem_keys_erase.1 h).1 rfl⟩
    · rw [takeReservation_pending, OrderedMap.keys_eq_nil_iff]
      by_cases hempty : (p.pending.erase acct.accountId).entries = []
      · exact .inl hempty
      · exact .inr (.inl (sender_of_take_ne hs hempty))
    · rw [takeReservation_pending, OrderedMap.keys_eq_nil_iff]
      by_cases hempty : (p.pending.erase acct.accountId).entries = []
      · exact .inl hempty
      · exact .inr (sender_of_take_ne hs hempty)

end Attempt

section Carry

variable {due : A → Prop} {todo todo' : Nat → A → Prop} {S : EagerState A D} {n : Nat} {a : A}
  {r : TryReserveResult} {p p' : PendingWithdraw A D} {dl' : List (Nat × ScheduleResult D)}
  {acct : AccountState A}

/-- Withdraw `n` tried on account `a`, which then holds `acct`: the invariant holds after,
with the pair `(n, a)` no longer to do, when `acct` queues `n` just when it must wait and
otherwise holds the queue the account had. -/
theorem Inv'.attempt (todo' : Nat → A → Prop) (acct : AccountState A) (h : Inv' due todo S) (hn : S.withdraws.get? n = some p)
    (ho : Outcome S.accumulatorVersion a n r p p' S.delivered dl')
    (hwait : Queued S.trackedAccounts n a ∨ todo n a)
    (hset : a ∈ (S.pendingSettlements.entry p.accumulatorVersion OrderedMap.empty).keys)
    (hle : S.accumulatorVersion ≤ p.accumulatorVersion)
    (hid : acct.accountId = a)
    (hQ : ∀ m, m ≠ n → (m ∈ acct.pendingReservations ↔ Queued S.trackedAccounts m a))
    (hQn : n ∈ acct.pendingReservations ↔ r = .pending)
    (hnodup : acct.pendingReservations.Nodup)
    (hsorted : acct.pendingReservations.Pairwise fun m k =>
      versionOf S.withdraws m ≤ versionOf S.withdraws k)
    (htodo : ∀ m c, m ≠ n ∨ c ≠ a → (todo' m c ↔ todo m c)) (hna : ¬todo' n a) :
    Inv' due todo' { S with
      trackedAccounts := S.trackedAccounts.insert a acct
      withdraws := S.withdraws.insert n p'
      delivered := dl' } := by
  have hver : versionOf (S.withdraws.insert n p') = versionOf S.withdraws := by
    funext k
    rw [versionOf_insert]
    split_ifs with hk
    · subst hk
      simp [versionOf, hn, ho.decides.version]
    · rfl
  have hother : ∀ m c, m ≠ n →
      (Queued (S.trackedAccounts.insert a acct) m c ↔ Queued S.trackedAccounts m c) := by
    intro m c hm
    rw [queued_insert]
    split_ifs with hc
    · subst hc
      exact hQ m hm
    · rfl
  have hself : ∀ c, c ≠ a →
      (Queued (S.trackedAccounts.insert a acct) n c ↔ Queued S.trackedAccounts n c) := by
    intro c hc
    rw [queued_insert, if_neg hc]
  have hhere : Queued (S.trackedAccounts.insert a acct) n a ↔ r = .pending := by
    rw [queued_insert, if_pos rfl, hQn]
  have hstored : ∀ q, (S.withdraws.insert n p').get? n = some q → q = p' := fun q hq =>
    (Option.some.inj ((OrderedMap.get?_insert_self _ _ _).symm.trans hq)).symm
  refine ⟨?accountId, ?nodup, ?sorted, ?queued, ?waiting, ?decided, ?ahead, ?delivery⟩
  case accountId =>
    intro c ac hc
    rcases OrderedMap.get?_insert_eq_some.1 hc with ⟨rfl, rfl⟩ | ⟨-, hc⟩
    · exact hid
    · exact h.accountId c ac hc
  case nodup =>
    intro c ac hc
    rcases OrderedMap.get?_insert_eq_some.1 hc with ⟨rfl, rfl⟩ | ⟨-, hc⟩
    · exact hnodup
    · exact h.nodup c ac hc
  case sorted =>
    intro c ac hc
    dsimp only
    rw [hver]
    rcases OrderedMap.get?_insert_eq_some.1 hc with ⟨rfl, rfl⟩ | ⟨-, hc⟩
    · exact hsorted
    · exact h.sorted c ac hc
  case queued =>
    intro m c hq
    dsimp only at hq ⊢
    by_cases hmn : m = n
    · subst hmn
      by_cases hca : c = a
      · -- the withdraw just queued on `a` waits for a later version
        subst hca
        obtain ⟨hcur, hp⟩ := ho.pending (hhere.1 hq)
        rw [hp]
        exact ⟨p, by simp, ho.mem, hset, .inl (lt_of_le_of_ne hle hcur)⟩
      · obtain ⟨q, hq', hc, hs, hv⟩ := h.queued m c ((hself c hca).1 hq)
        obtain rfl : q = p := Option.some.inj (hq'.symm.trans hn)
        refine ⟨p', by simp, ho.keep c hc hca, ?_, ?_⟩ <;> rw [ho.decides.version] <;> assumption
    · obtain ⟨q, hq', hc, hs, hv⟩ := h.queued m c ((hother m c hmn).1 hq)
      exact ⟨q, by rw [OrderedMap.get?_insert_of_ne _ _ hmn]; exact hq', hc, hs, hv⟩
  case waiting =>
    intro m q hq hs
    dsimp only at hq ⊢
    by_cases hmn : m = n
    · subst hmn
      rw [hstored q hq] at hs ⊢
      by_cases hr : r = .pending
      · rw [(ho.pending hr).2] at hs ⊢
        obtain ⟨hne, hall⟩ := h.waiting m p hn hs
        refine ⟨hne, fun c hc => ?_⟩
        by_cases hca : c = a
        · exact .inl (hca ▸ hhere.2 hr)
        · rcases hall c hc with hq | ht
          · exact .inl ((hself c hca).2 hq)
          · exact .inr ((htodo m c (.inr hca)).2 ht)
      · -- reserved from `a` and still waiting on the others
        obtain ⟨hs₀, hne, ha⟩ := ho.waits hr hs
        refine ⟨hne, fun c hc => ?_⟩
        have hca : c ≠ a := fun heq => ha (heq ▸ hc)
        rcases (h.waiting m p hn hs₀).2 c (ho.sub c hc) with hq | ht
        · exact .inl ((hself c hca).2 hq)
        · exact .inr ((htodo m c (.inr hca)).2 ht)
    · rw [OrderedMap.get?_insert_of_ne _ _ hmn] at hq
      obtain ⟨hne, hall⟩ := h.waiting m q hq hs
      refine ⟨hne, fun c hc => ?_⟩
      rcases hall c hc with hq | ht
      · exact .inl ((hother m c hmn).2 hq)
      · exact .inr ((htodo m c (.inl hmn)).2 ht)
  case decided =>
    intro m q hq hs
    dsimp only at hq ⊢
    by_cases hmn : m = n
    · subst hmn
      rw [hstored q hq] at hs ⊢
      -- decided before: its stuck account is not `a`, which it waited on
      have hold : p.sender = false → p'.pending.keys = [] ∨ ∃ c ∈ p'.pending.keys,
          ¬Queued (S.trackedAccounts.insert a acct) m c ∧ ¬todo' m c := by
        intro hs₀
        rcases h.decided m p hn hs₀ with hnil | ⟨c, hc, hq, ht⟩
        · exact absurd hnil (List.ne_nil_of_mem ho.mem)
        · have hca : c ≠ a := by
            rintro rfl
            rcases hwait with hw | hw
            · exact hq hw
            · exact ht hw
          exact .inr ⟨c, ho.keep c hc hca, mt (hself c hca).1 hq, mt (htodo m c (.inr hca)).1 ht⟩
      by_cases hr : r = .pending
      · rw [(ho.pending hr).2] at hs
        exact hold hs
      · rcases ho.stuck hr hs with hnil | hs₀ | ha
        · exact .inl hnil
        · exact hold hs₀
        · exact .inr ⟨a, ha, mt hhere.1 hr, hna⟩
    · rw [OrderedMap.get?_insert_of_ne _ _ hmn] at hq
      rcases h.decided m q hq hs with hnil | ⟨c, hc, hq, ht⟩
      · exact .inl hnil
      · exact .inr ⟨c, hc, mt (hother m c hmn).1 hq, mt (htodo m c (.inl hmn)).1 ht⟩
  case ahead =>
    intro m q hq hlt hs
    dsimp only at hq hlt ⊢
    by_cases hmn : m = n
    · subst hmn
      rw [hstored q hq] at hs hlt ⊢
      rw [ho.decides.version] at hlt
      -- decided before and ahead of the version, it would have had nothing left to reserve
      have hold : p.sender ≠ false := fun hs₀ =>
        List.ne_nil_of_mem ho.mem (h.ahead m p hn hlt hs₀)
      by_cases hr : r = .pending
      · rw [(ho.pending hr).2] at hs
        exact absurd hs hold
      · exact (ho.early hr hlt hs).resolve_right hold
    · rw [OrderedMap.get?_insert_of_ne _ _ hmn] at hq
      exact h.ahead m q hq hlt hs
  case delivery => exact (h.delivery.decide hn ho.decides).of_eq rfl rfl rfl

/-- A withdraw that waits on `a` still has its sender when `a` is its last reservation. -/
theorem Inv'.sender_of_erase (h : Inv' due todo S) (hn : S.withdraws.get? n = some p)
    (ha : a ∈ p.pending.keys) (hwait : Queued S.trackedAccounts n a ∨ todo n a)
    (hempty : (p.pending.erase a).entries = []) : p.sender = true := by
  cases hs : p.sender
  · rcases h.decided n p hn hs with hnil | ⟨c, hc, hq, ht⟩
    · exact absurd hnil (List.ne_nil_of_mem ha)
    · have hca : c ≠ a := by
        rintro rfl
        exact hwait.elim hq ht
      have hmem : c ∈ (p.pending.erase a).keys := OrderedMap.mem_keys_erase.2 ⟨hca, hc⟩
      simp [OrderedMap.keys, hempty] at hmem
  · rfl

/-- The account `a` as the loops find it: the tracked one, or a fresh one with nothing
queued. -/
theorem Inv'.account (h : Inv' due todo S) (a : A) (fresh : AccountState A)
    (hfid : fresh.accountId = a) (hfq : fresh.pendingReservations = []) :
    ((S.trackedAccounts.get? a).getD fresh).accountId = a ∧
      ((S.trackedAccounts.get? a).getD fresh).pendingReservations.Nodup ∧
      ((S.trackedAccounts.get? a).getD fresh).pendingReservations.Pairwise
        (fun m k => versionOf S.withdraws m ≤ versionOf S.withdraws k) ∧
      ∀ m, m ∈ ((S.trackedAccounts.get? a).getD fresh).pendingReservations ↔
        Queued S.trackedAccounts m a := by
  cases hget : S.trackedAccounts.get? a with
  | none =>
    simp only [Option.getD_none, hfid, hfq, List.nodup_nil, List.Pairwise.nil, List.not_mem_nil,
      false_iff, true_and]
    rintro m ⟨ac, hac, -⟩
    simp [hget] at hac
  | some ac =>
    refine ⟨h.accountId a ac hget, h.nodup a ac hget, h.sorted a ac hget, fun m => ?_⟩
    simp [Queued, hget]

/-- Settling the accounts that are due: the invariant with fewer accounts due, once no withdraw
queued at the current version waits on the accounts that leave. -/
theorem Inv'.of_due {due' : A → Prop} (h : Inv' due todo S)
    (hd : ∀ n a p, Queued S.trackedAccounts n a → S.withdraws.get? n = some p →
      S.accumulatorVersion = p.accumulatorVersion → due a → due' a) :
    Inv' due' todo S :=
  { h with
    queued := fun n a hq => by
      obtain ⟨p, hp, ha, hs, hv⟩ := h.queued n a hq
      exact ⟨p, hp, ha, hs, hv.imp_right fun hv => ⟨hv.1, hd n a p hq hp hv.1 hv.2⟩⟩ }

/-- The invariant reads an account only through its id and its queue. -/
theorem Inv'.of_tracked (h : Inv' due todo S) (T : OrderedMap A (AccountState A))
    (hget : ∀ c ac, T.get? c = some ac → ∃ ac', S.trackedAccounts.get? c = some ac' ∧
      ac.accountId = ac'.accountId ∧ ac.pendingReservations = ac'.pendingReservations)
    (hq : ∀ m c, Queued T m c ↔ Queued S.trackedAccounts m c) :
    Inv' due todo { S with trackedAccounts := T } := by
  refine ⟨fun c ac hc => ?_, fun c ac hc => ?_, fun c ac hc => ?_, fun m c hqc => ?_,
    fun m q hm hs => ?_, fun m q hm hs => ?_, h.ahead, h.delivery.of_eq rfl rfl rfl⟩
  · obtain ⟨ac', hc', hid, -⟩ := hget c ac hc
    exact hid.trans (h.accountId c ac' hc')
  · obtain ⟨ac', hc', -, hqueue⟩ := hget c ac hc
    exact hqueue ▸ h.nodup c ac' hc'
  · obtain ⟨ac', hc', -, hqueue⟩ := hget c ac hc
    exact hqueue ▸ h.sorted c ac' hc'
  · exact h.queued m c ((hq m c).1 hqc)
  · obtain ⟨hne, hall⟩ := h.waiting m q hm hs
    exact ⟨hne, fun c hc => (hall c hc).imp (hq m c).2 id⟩
  · rcases h.decided m q hm hs with hnil | ⟨c, hc, hqc, ht⟩
    · exact .inl hnil
    · exact .inr ⟨c, hc, mt (hq m c).1 hqc, ht⟩

/-- Settling an account changes its funds, not its id or its queue. -/
theorem Inv'.reset_account {acct' : AccountState A} (h : Inv' due todo S)
    (hget : S.trackedAccounts.get? a = some acct) (hid : acct'.accountId = acct.accountId)
    (hqueue : acct'.pendingReservations = acct.pendingReservations) :
    Inv' due todo { S with trackedAccounts := S.trackedAccounts.insert a acct' } := by
  refine h.of_tracked _ (fun c ac hc => ?_) fun m c => ?_
  · rcases OrderedMap.get?_insert_eq_some.1 hc with ⟨rfl, rfl⟩ | ⟨-, hc⟩
    · exact ⟨acct, hget, hid, hqueue⟩
    · exact ⟨ac, hc, rfl, rfl⟩
  · rw [queued_insert]
    split_ifs with hca
    · subst hca
      simp [Queued, hget, hqueue]
    · rfl

/-- An account left with nothing queued is no longer tracked. -/
theorem Inv'.untrack (h : Inv' due todo { S with trackedAccounts := S.trackedAccounts.insert a acct })
    (hqueue : acct.pendingReservations = []) :
    Inv' due todo { S with trackedAccounts := S.trackedAccounts.erase a } := by
  refine h.of_tracked _ (fun c ac hc => ?_) fun m c => ?_
  · have hca : c ≠ a := by
      rintro rfl
      simp at hc
    rw [OrderedMap.get?_erase_of_ne _ hca] at hc
    exact ⟨ac, by rw [OrderedMap.get?_insert_of_ne _ _ hca]; exact hc, rfl, rfl⟩
  · rw [queued_erase, queued_insert]
    split_ifs with hca
    · simp [hca, hqueue]
    · simp [hca]

end Carry

end FundsWithdraw

end Rtd
