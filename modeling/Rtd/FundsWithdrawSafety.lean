import Rtd.FundsWithdrawInvariant
import Mathlib

/-!
Every withdraw the eager scheduler takes gets one answer, and in time: over any run of
`schedule_withdraws` at non-decreasing versions and `settle_funds`, each channel receives at
most one result, a withdraw goes without one only while its version is still ahead of the
accumulator, and no assertion or `unwrap` of the scheduler fires but the two that guard its
input: a settlement that skips a version, and withdrawals beyond what was reserved.

The loops are proved by their own invariants, `Reserving` over the accounts of a withdraw
being scheduled and `Retrying` over an account's queue at a new version, each a relaxation of
`Inv'` stated on the state the loop would leave if it stopped here; the run lemma
`Reachable.inv` follows by induction over the calls.
-/

set_option autoImplicit false

namespace Rtd

namespace FundsWithdraw

variable {A D : Type} [LinearOrder A]

/-! ### Scheduling -/

section Schedule

variable (fundsRead : A → Nat → Nat) {cur v n : Nat}

/-- The loop of `schedule_withdraws` over the accounts of withdraw `n` at version `v`, with
the accounts `L` still to reserve from and the withdraw as `p` so far: the invariant holds
with `p` stored, and the pairs `(n, a)` for `a ∈ L` still to do. -/
structure Reserving (cur v n : Nat) (L : List A) (p : PendingWithdraw A D)
    (s : EagerState A D) : Prop where
  inv : Inv' (fun _ => False) (fun m a => m = n ∧ a ∈ L)
    { s with withdraws := s.withdraws.insert n p }
  current : s.accumulatorVersion = cur
  version : p.accumulatorVersion = v
  cur_le : cur ≤ v
  nodup : L.Nodup
  todo : ∀ a ∈ L, a ∈ p.pending.keys ∧ ¬Queued s.trackedAccounts n a
  settle : ∀ a ∈ p.pending.keys, a ∈ (s.pendingSettlements.entry v OrderedMap.empty).keys
  /-- No withdraw was scheduled at a later version. -/
  bound : Bounded v s.withdraws

variable {L : List A} {a : A} {p : PendingWithdraw A D} {s : EagerState A D}

/-- What waits on an account the withdraw has not reached reads a version ahead, and not
beyond the withdraw's own. -/
theorem Reserving.queued_version {m : Nat} (h : Reserving cur v n L p s)
    (hq : Queued s.trackedAccounts m a) (hna : ¬Queued s.trackedAccounts n a) :
    ∃ q, s.withdraws.get? m = some q ∧ cur < q.accumulatorVersion ∧ q.accumulatorVersion ≤ v := by
  have hmn : m ≠ n := by
    rintro rfl
    exact hna hq
  obtain ⟨q, hq', -, -, hv⟩ := h.inv.queued m a hq
  dsimp only at hq' hv
  rw [OrderedMap.get?_insert_of_ne _ _ hmn] at hq'
  refine ⟨q, hq', ?_, h.bound m q hq'⟩
  rcases hv with hv | ⟨-, hv⟩
  · exact h.current ▸ hv
  · exact hv.elim

/-- The step of the loop: the invariant of the loop carries over to the next account. -/
theorem Reserving.next {acct acct' : AccountState A} {r : TryReserveResult} {b : Bool}
    {p' : PendingWithdraw A D} {dl' : List (Nat × ScheduleResult D)}
    (h : Reserving cur v n (a :: L) p s)
    (hacct : (s.trackedAccounts.get? a).getD (AccountState.new fundsRead a cur) = acct)
    (hr : tryReserve cur acct n p b s.delivered = .ok (r, acct', p', dl')) :
    Reserving cur v n L p' { s with
      trackedAccounts := s.trackedAccounts.insert a (if r = .pending then
        { acct' with pendingReservations := acct'.pendingReservations ++ [n] } else acct')
      delivered := dl' } := by
  have hcur := h.current
  subst hcur
  obtain ⟨hid, hnodup, hsorted, hiff⟩ :=
    h.inv.account a (AccountState.new fundsRead a s.accumulatorVersion) rfl rfl
  dsimp only at hid hnodup hsorted hiff
  rw [hacct] at hid hnodup hsorted hiff
  obtain ⟨-, hid', hqueue', -⟩ := tryReserve_cases hr
  have ho := tryReserve_outcome hr
  rw [hid] at ho
  obtain ⟨haL, hL⟩ := List.nodup_cons.1 h.nodup
  obtain ⟨ha, hna⟩ := h.todo a List.mem_cons_self
  have hnq : n ∉ acct.pendingReservations := fun hn => hna ((hiff n).1 hn)
  set acct'' := if r = .pending then
    { acct' with pendingReservations := acct'.pendingReservations ++ [n] } else acct' with hacct''
  have hq'' : acct''.pendingReservations =
      acct.pendingReservations ++ if r = .pending then [n] else [] := by
    rw [hacct'']
    split_ifs <;> simp [hqueue']
  have hid'' : acct''.accountId = a := by
    rw [hacct'']
    split_ifs <;> simp [hid', hid]
  -- the queue of `a` gains `n` at its back exactly when `n` must wait
  have hQ : ∀ m, m ≠ n → (m ∈ acct''.pendingReservations ↔ Queued s.trackedAccounts m a) := by
    intro m hm
    rw [hq'', ← hiff m]
    split_ifs <;> simp [hm]
  have hQn : n ∈ acct''.pendingReservations ↔ r = .pending := by
    rw [hq'']
    split_ifs with hr' <;> simp [hnq, hr']
  have hnodup'' : acct''.pendingReservations.Nodup := by
    rw [hq'']
    split_ifs
    · exact List.nodup_append.2 ⟨hnodup, List.nodup_singleton n, fun m hm k hk =>
        (List.mem_singleton.1 hk) ▸ fun heq => hnq (heq ▸ hm)⟩
    · simpa using hnodup
  have hsorted'' : acct''.pendingReservations.Pairwise fun m k =>
      versionOf (s.withdraws.insert n p) m ≤ versionOf (s.withdraws.insert n p) k := by
    rw [hq'']
    split_ifs
    · refine List.pairwise_append.2 ⟨hsorted, List.pairwise_singleton _ _, fun m hm k hk => ?_⟩
      obtain rfl := List.mem_singleton.1 hk
      obtain ⟨q, hq, -, hqv⟩ := h.queued_version ((hiff m).1 hm) hna
      have hmn : m ≠ k := fun heq => hnq (heq ▸ hm)
      rw [versionOf_insert, versionOf_insert, if_neg hmn, if_pos rfl, h.version]
      simpa [versionOf, hq] using hqv
    · simpa using hsorted
  have htodo : ∀ m c, m ≠ n ∨ c ≠ a → ((m = n ∧ c ∈ L) ↔ (m = n ∧ c ∈ a :: L)) := by
    rintro m c (hm | hc)
    · simp [hm]
    · simp [hc]
  have hinv := h.inv.attempt (fun m c => m = n ∧ c ∈ L) acct''
    (OrderedMap.get?_insert_self _ _ _) ho (.inr ⟨rfl, List.mem_cons_self⟩)
    (h.version ▸ h.settle a ha) (h.version ▸ h.cur_le) hid'' hQ hQn hnodup'' hsorted'' htodo
    (fun h => haL h.2)
  dsimp only at hinv
  rw [OrderedMap.insert_insert] at hinv
  refine ⟨hinv, rfl, ho.decides.version.trans h.version, h.cur_le, hL, fun c hc => ?_,
    fun c hc => h.settle c (ho.sub c hc), h.bound⟩
  have hca : c ≠ a := fun heq => haL (heq ▸ hc)
  obtain ⟨hcp, hcq⟩ := h.todo c (List.mem_cons_of_mem a hc)
  refine ⟨ho.keep c hcp hca, ?_⟩
  rw [queued_insert, if_neg hca]
  exact hcq

/-- The loop of `schedule_withdraws` over one withdraw's accounts runs through. -/
theorem reserveAccounts_spec (h : Reserving cur v n L p s) :
    ∃ p' s', reserveAccounts fundsRead cur n L p s = .ok (p', s') ∧ Reserving cur v n [] p' s' := by
  induction L generalizing p s with
  | nil => exact ⟨p, s, rfl, h⟩
  | cons a L ih =>
    obtain ⟨acct, hacct⟩ : ∃ acct,
        (s.trackedAccounts.get? a).getD (AccountState.new fundsRead a cur) = acct := ⟨_, rfl⟩
    obtain ⟨hid, -, -, hiff⟩ :=
      h.inv.account a (AccountState.new fundsRead a cur) rfl rfl
    dsimp only at hid hiff
    rw [hacct] at hid hiff
    obtain ⟨ha, hna⟩ := h.todo a List.mem_cons_self
    -- what waits on the account reads a version ahead, so the assertion holds
    have hblock : (!acct.pendingReservations.isEmpty) = true → cur ≠ p.accumulatorVersion := by
      intro hb
      obtain ⟨m, hm⟩ := List.exists_mem_of_ne_nil _ (by simpa using hb)
      obtain ⟨q, -, hlt, hle⟩ := h.queued_version ((hiff m).1 hm) hna
      rw [h.version]
      omega
    have hsender := h.inv.sender_of_erase (OrderedMap.get?_insert_self _ _ _) ha
      (.inr ⟨rfl, List.mem_cons_self⟩)
    obtain ⟨⟨r, acct', p', dl'⟩, hr⟩ : ∃ res, tryReserve cur acct n p
        (!acct.pendingReservations.isEmpty) s.delivered = .ok res :=
      tryReserve_ok (by rw [hid]; exact OrderedMap.mem_keys.1 ha) hblock (by rw [hid]; exact hsender)
    obtain ⟨p'', s'', hrun, hres⟩ := ih (h.next fundsRead hacct hr)
    refine ⟨p'', s'', ?_, hres⟩
    simp only [reserveAccounts, hacct, hr, Except.ok_bind]
    exact hrun

/-- A new withdraw `p` on the next channel, with its sender and something to reserve, and
nothing reserved yet: the invariant holds with all its accounts still to do. -/
theorem Inv.schedule {ps : OrderedMap Nat (OrderedMap A Unit)}
    (h : Inv s) (hs : p.sender = true) (hne : p.pending.entries ≠ [])
    (hps : ∀ k c, c ∈ (s.pendingSettlements.entry k OrderedMap.empty).keys →
      c ∈ (ps.entry k OrderedMap.empty).keys) :
    Inv' (fun _ => False) (fun m a => m = s.channels ∧ a ∈ p.pending.keys) { s with
      pendingSettlements := ps
      channels := s.channels + 1
      withdraws := s.withdraws.insert s.channels p } := by
  have hstored : ∀ m q, s.withdraws.get? m = some q → m ≠ s.channels := fun m q hq =>
    (h.delivery.stored_lt m q hq).ne
  have hfresh : ∀ m c, Queued s.trackedAccounts m c → m ≠ s.channels := fun m c hq => by
    obtain ⟨q, hq, -⟩ := h.queued m c hq
    exact hstored m q hq
  refine ⟨h.accountId, h.nodup, fun c ac hc => ?_, fun m c hq => ?_, fun m q hq hsq => ?_,
    fun m q hq hsq => ?_, fun m q hq hlt hsq => ?_, ?_⟩
  · refine (h.sorted c ac hc).imp_of_mem fun hm hk hle => ?_
    dsimp only
    rw [versionOf_insert, versionOf_insert, if_neg (hfresh _ c ⟨ac, hc, hm⟩),
      if_neg (hfresh _ c ⟨ac, hc, hk⟩)]
    exact hle
  · obtain ⟨q, hq', hc, hset, hv⟩ := h.queued m c hq
    refine ⟨q, ?_, hc, hps _ c hset, hv⟩
    dsimp only
    rw [OrderedMap.get?_insert_of_ne _ _ (hfresh m c hq)]
    exact hq'
  · rcases OrderedMap.get?_insert_eq_some.1 hq with ⟨rfl, rfl⟩ | ⟨hm, hq⟩
    · exact ⟨by rwa [Ne, OrderedMap.keys_eq_nil_iff], fun c hc => .inr ⟨rfl, hc⟩⟩
    · obtain ⟨hne', hall⟩ := h.waiting m q hq hsq
      exact ⟨hne', fun c hc => (hall c hc).imp id False.elim⟩
  · rcases OrderedMap.get?_insert_eq_some.1 hq with ⟨rfl, rfl⟩ | ⟨hm, hq⟩
    · exact absurd (hs.symm.trans hsq) (by simp)
    · rcases h.decided m q hq hsq with hnil | ⟨c, hc, hq, -⟩
      · exact .inl hnil
      · exact .inr ⟨c, hc, hq, fun ht => hm ht.1⟩
  · rcases OrderedMap.get?_insert_eq_some.1 hq with ⟨rfl, rfl⟩ | ⟨hm, hq⟩
    · exact absurd (hs.symm.trans hsq) (by simp)
    · exact h.ahead m q hq hlt hsq
  · -- the new channel has received nothing yet
    refine ⟨fun m q hq => ?_, fun m hm hlt => ?_, fun m hm => ?_, fun m q hq => ?_⟩
    · rcases OrderedMap.get?_insert_eq_some.1 hq with ⟨rfl, rfl⟩ | ⟨-, hq⟩
      · exact .inl ⟨hs, h.delivery.fresh _ le_rfl⟩
      · exact h.delivery.stored m q hq
    · have hmn : m ≠ s.channels := by
        rintro rfl
        simp at hm
      dsimp only at hm hlt
      rw [OrderedMap.get?_insert_of_ne _ _ hmn] at hm
      exact h.delivery.skipped m hm (by omega)
    · exact h.delivery.fresh m (by dsimp only at hm; omega)
    · rcases OrderedMap.get?_insert_eq_some.1 hq with ⟨rfl, rfl⟩ | ⟨-, hq⟩
      · exact Nat.lt_succ_self _
      · exact Nat.lt_succ_of_lt (h.delivery.stored_lt m q hq)

theorem mem_settlement_extend {ps : OrderedMap Nat (OrderedMap A Unit)} {k : Nat} {c : A}
    {l : List A} (hc : c ∈ (ps.entry k OrderedMap.empty).keys ∨ (k = v ∧ c ∈ l)) :
    c ∈ ((ps.insert v (extendSet (ps.entry v OrderedMap.empty) l)).entry k
      OrderedMap.empty).keys := by
  by_cases hk : k = v
  · subst hk
    rw [OrderedMap.entry_insert_self, mem_keys_extendSet]
    exact hc.imp_right And.right
  · rw [OrderedMap.entry_insert_of_ne _ _ _ hk]
    exact hc.resolve_right fun h => hk h.1

/-- The loop over a withdraw's accounts starts from the invariant. -/
theorem Reserving.start {w : TxFundsWithdraw A D} (h : Inv s) (hcur : s.accumulatorVersion = cur)
    (hle : cur ≤ v) (hbound : Bounded v s.withdraws)
    (hne : w.reservations.entries ≠ []) :
    Reserving cur v s.channels w.reservations.keys ⟨v, w.txDigest, true, w.reservations⟩ { s with
      pendingSettlements := s.pendingSettlements.insert v
        (extendSet (s.pendingSettlements.entry v OrderedMap.empty) w.reservations.keys)
      channels := s.channels + 1 } := by
  refine ⟨h.schedule (p := ⟨v, w.txDigest, true, w.reservations⟩) rfl hne fun k c hc => mem_settlement_extend (.inl hc), hcur, rfl, hle,
    OrderedMap.nodup_keys _, fun a ha => ⟨ha, fun hq => ?_⟩,
    fun a ha => mem_settlement_extend (.inr ⟨rfl, ha⟩), hbound⟩
  -- the next channel is not yet waiting anywhere
  obtain ⟨q, hq, -⟩ := h.queued _ a hq
  exact (h.delivery.stored_lt _ q hq).ne rfl

/-- The loop over a withdraw's accounts ends in the invariant, with the withdraw stored. -/
theorem Reserving.finish (h : Reserving cur v n [] p s) :
    Inv { s with withdraws := s.withdraws.insert n p } ∧ Bounded v (s.withdraws.insert n p) := by
  have e : (fun m (a : A) => m = n ∧ a ∈ ([] : List A)) = fun _ _ => False := by
    funext m a
    simp
  have hinv := h.inv
  rw [e] at hinv
  exact ⟨hinv, h.bound.insert h.version.le⟩

/-- The loop of `schedule_withdraws` over the batch runs through, at a version no earlier
than the current one and than every withdraw scheduled before. -/
theorem scheduleEach_spec {ws : List (TxFundsWithdraw A D)} (h : Inv s)
    (hcur : s.accumulatorVersion = cur) (hle : cur ≤ v) (hbound : Bounded v s.withdraws)
    (hne : ∀ w ∈ ws, w.reservations.entries ≠ []) :
    ∃ s', scheduleEach fundsRead v cur ws s = .ok s' ∧ Inv s' ∧ s'.accumulatorVersion = cur ∧
      Bounded v s'.withdraws := by
  induction ws generalizing s with
  | nil => exact ⟨s, rfl, h, hcur, hbound⟩
  | cons w ws ih =>
    obtain ⟨p, s₁, hrun, hres⟩ :=
      reserveAccounts_spec fundsRead (Reserving.start h hcur hle hbound (hne w List.mem_cons_self))
    obtain ⟨hinv, hbound'⟩ := hres.finish
    obtain ⟨s', hrun', hs'⟩ :=
      ih hinv hres.current hbound' fun w' hw' => hne w' (List.mem_cons_of_mem w hw')
    refine ⟨s', ?_, hs'⟩
    simp only [scheduleEach, hrun, Except.ok_bind]
    exact hrun'

/-- A batch told to skip: each of its channels receives its skip. -/
theorem Inv.skip (h : Inv s) (ws : List (TxFundsWithdraw A D)) :
    Inv (notifySkipSchedule ws s) := by
  have hskips := fun m => received_skips (D := D) (n := m) ws s.channels
  refine { h with delivery := ⟨fun m q hq => ?_, fun m hm hlt => ?_, fun m hm => ?_,
    fun m q hq => ?_⟩ }
  · have hlt := h.delivery.stored_lt m q hq
    dsimp only [notifySkipSchedule]
    rw [received_append, (hskips m).1 (.inl hlt), List.append_nil]
    exact h.delivery.stored m q hq
  · dsimp only [notifySkipSchedule] at hm hlt ⊢
    rw [received_append]
    by_cases hc : m < s.channels
    · rw [(hskips m).1 (.inl hc), List.append_nil]
      exact h.delivery.skipped m hm hc
    · rw [h.delivery.fresh m (by omega), List.nil_append]
      exact (hskips m).2 (by omega) hlt
  · dsimp only [notifySkipSchedule] at hm ⊢
    rw [received_append, h.delivery.fresh m (by omega), (hskips m).1 (.inr hm)]
    rfl
  · exact Nat.lt_of_lt_of_le (h.delivery.stored_lt m q hq) (Nat.le_add_right _ _)

/-- `schedule_withdraws` never panics on a batch at a version no earlier than the batches
before it whose withdraws each reserve something, and keeps the invariant. -/
theorem scheduleWithdraws_spec {ws : List (TxFundsWithdraw A D)} (h : Inv s)
    (hbound : Bounded v s.withdraws) (hne : ∀ w ∈ ws, w.reservations.entries ≠ []) :
    ∃ s', scheduleWithdraws fundsRead v ws s = .ok s' ∧ Inv s' ∧
      s'.accumulatorVersion = s.accumulatorVersion ∧ Bounded v s'.withdraws := by
  unfold scheduleWithdraws
  split_ifs with hlt
  · exact ⟨_, rfl, h.skip ws, rfl, hbound⟩
  · exact scheduleEach_spec fundsRead h rfl (Nat.not_lt.1 hlt) hbound hne

end Schedule

/-! ### Settling -/

section Settle

variable {next : Nat} {a : A} {L : List A} {s : EagerState A D}

/-- The loop of `settle_funds` over the queue of account `a` at the new version `next`, with
`Q` still to try and the account as `accountState` so far: the invariant holds with the
account holding `Q`, and `a` still due. -/
structure Retrying (next : Nat) (a : A) (L : List A) (accountState : AccountState A)
    (Q : List Nat) (s : EagerState A D) : Prop where
  inv : Inv' (· ∈ a :: L) (fun _ _ => False) { s with
    trackedAccounts := s.trackedAccounts.insert a { accountState with pendingReservations := Q } }
  accountId : accountState.accountId = a
  current : s.accumulatorVersion = next

/-- The loop over an account's queue runs through; the account is then done with, and the
withdraws keep their versions. -/
theorem retryPendingReservations_spec {accountState : AccountState A} {Q : List Nat}
    (h : Retrying next a L accountState Q s) :
    ∃ acct' s', retryPendingReservations next accountState Q s = .ok (acct', s') ∧
      Inv' (· ∈ L) (fun _ _ => False)
        { s' with trackedAccounts := s'.trackedAccounts.insert a acct' } ∧
      acct'.accountId = a ∧ s'.accumulatorVersion = next ∧
      ∀ v, Bounded v s.withdraws → Bounded v s'.withdraws := by
  induction Q generalizing accountState s with
  | nil =>
    refine ⟨{ accountState with pendingReservations := [] }, s, rfl, ?_, h.accountId, h.current,
      fun _ hb => hb⟩
    -- nothing waits on `a` any more
    refine h.inv.of_due fun m c q hq _ _ hc => ?_
    rcases List.mem_cons.1 hc with rfl | hc
    · rw [queued_insert, if_pos rfl] at hq
      exact absurd hq List.not_mem_nil
    · exact hc
  | cons n Q ih =>
    have hqa : Queued (s.trackedAccounts.insert a
        { accountState with pendingReservations := n :: Q }) n a := by
      rw [queued_insert, if_pos rfl]
      exact List.mem_cons_self
    obtain ⟨p, hn, ha, hset, hv⟩ := h.inv.queued n a hqa
    dsimp only at hn hset hv
    -- the assertion of the loop: what waits reads the new version or a later one
    have hle : next ≤ p.accumulatorVersion := by
      have := h.current
      rcases hv with hv | hv <;> omega
    have hsender := h.inv.sender_of_erase hn ha (.inl hqa)
    obtain ⟨⟨r, acct', p', dl'⟩, hr⟩ : ∃ res, tryReserve next accountState n p false s.delivered =
        .ok res :=
      tryReserve_ok (by rw [h.accountId]; exact OrderedMap.mem_keys.1 ha)
        (fun hb => absurd hb (by simp)) (by rw [h.accountId]; exact hsender)
    obtain ⟨-, hid', hqueue', -⟩ := tryReserve_cases hr
    have ho := tryReserve_outcome hr
    rw [h.accountId] at ho
    have hnodup := h.inv.nodup a _ (OrderedMap.get?_insert_self _ _ _)
    have hsorted := h.inv.sorted a _ (OrderedMap.get?_insert_self _ _ _)
    dsimp only at hnodup hsorted
    obtain ⟨hnQ, hQnd⟩ := List.nodup_cons.1 hnodup
    have hiff : ∀ m, (m ∈ n :: Q ↔ Queued (s.trackedAccounts.insert a
        { accountState with pendingReservations := n :: Q }) m a) := by
      intro m
      rw [queued_insert, if_pos rfl]
    have hbound : ∀ v, Bounded v s.withdraws → Bounded v (s.withdraws.insert n p') :=
      fun v hb => hb.insert (ho.decides.version ▸ hb n p hn)
    have hstep : retryPendingReservations next accountState (n :: Q) s =
        if r = .pending then
          .ok ({ acct' with pendingReservations := n :: Q },
            { s with withdraws := s.withdraws.insert n p', delivered := dl' })
        else retryPendingReservations next acct' Q
          { s with withdraws := s.withdraws.insert n p', delivered := dl' } := by
      simp only [retryPendingReservations, hn, Nat.not_lt.2 hle, if_false, hr, Except.ok_bind]
    by_cases hpend : r = .pending
    · -- the withdraw waits again at the front, and the loop stops
      have hinv := h.inv.attempt (fun _ _ => False)
        { acct' with pendingReservations := n :: Q } hn (h.current ▸ ho) (.inl hqa) hset
        (h.current ▸ hle) (by simp [hid', h.accountId]) (fun m _ => hiff m)
        (by simp [hpend]) hnodup hsorted (fun _ _ _ => Iff.rfl) id
      dsimp only at hinv
      rw [OrderedMap.insert_insert] at hinv
      refine ⟨{ acct' with pendingReservations := n :: Q },
        { s with withdraws := s.withdraws.insert n p', delivered := dl' },
        by rw [hstep, if_pos hpend], ?_, by simp [hid', h.accountId], h.current, hbound⟩
      obtain ⟨hcur, hp⟩ := ho.pending hpend
      -- what still waits on `a` reads a version after `next`: `n` does, and the rest of the
      -- queue is behind it
      refine hinv.of_due fun m c q hq hm hqv hc => ?_
      rcases List.mem_cons.1 hc with rfl | hc
      · rw [queued_insert, if_pos rfl] at hq
        dsimp only at hq hm hqv
        rcases OrderedMap.get?_insert_eq_some.1 hm with ⟨-, hqp⟩ | ⟨hmn, hm⟩
        · rw [hqp, hp, h.current] at hqv
          exact absurd hqv hcur
        · have hmQ : m ∈ Q := (List.mem_cons.1 hq).resolve_left hmn
          have hvq := (List.pairwise_cons.1 hsorted).1 m hmQ
          simp only [versionOf, hn, hm, Option.map_some, Option.getD_some] at hvq
          rw [h.current] at hqv
          omega
      · exact hc
    · -- decided for `a`: the loop goes on with the rest of the queue
      have hinv := h.inv.attempt (fun _ _ => False)
        { acct' with pendingReservations := Q } hn (h.current ▸ ho) (.inl hqa) hset
        (h.current ▸ hle) (by simp [hid', h.accountId])
        (fun m hm => (List.mem_cons.trans (or_iff_right hm)).symm.trans (hiff m))
        (by simp [hpend, hnQ]) hQnd (List.pairwise_cons.1 hsorted).2 (fun _ _ _ => Iff.rfl) id
      dsimp only at hinv
      rw [OrderedMap.insert_insert] at hinv
      have hnext : Retrying next a L acct' Q
          { s with withdraws := s.withdraws.insert n p', delivered := dl' } :=
        ⟨hinv, hid'.trans h.accountId, h.current⟩
      obtain ⟨acct₂, s₂, hrun, hpost, hid₂, hcur₂, hb₂⟩ := ih hnext
      exact ⟨acct₂, s₂, by rw [hstep, if_neg hpend]; exact hrun, hpost, hid₂, hcur₂,
        fun v hb => hb₂ v (hbound v hb)⟩

/-- One affected account: a settlement that withdraws more than was reserved is the only
panic, and otherwise the account is no longer due. -/
theorem settleAccount_spec {cleanupVersion : Nat} {fundsChanges : OrderedMap A Int}
    (h : Inv' (· ∈ a :: L) (fun _ _ => False) s) (hcur : s.accumulatorVersion = next) :
    Except.Holds (· = .withdrawExceedsReservations)
      (fun s' => Inv' (· ∈ L) (fun _ _ => False) s' ∧ s'.accumulatorVersion = next ∧
        ∀ v, Bounded v s.withdraws → Bounded v s'.withdraws)
      (settleAccount cleanupVersion next fundsChanges a s) := by
  unfold settleAccount
  cases hget : s.trackedAccounts.get? a with
  | none =>
    -- an account that is not tracked has nothing waiting on it
    refine ⟨h.of_due fun m c q hq _ _ hc => ?_, hcur, fun _ hb => hb⟩
    rcases List.mem_cons.1 hc with rfl | hc
    · obtain ⟨ac, hac, -⟩ := hq
      simp [hget] at hac
    · exact hc
  | some acct =>
    dsimp only
    by_cases hneg : (acct.reservedFunds.entry cleanupVersion 0 : Int) +
        fundsChanges.entry a 0 < 0
    · simp [hneg]
    · have hret : Retrying next a L { acct with
          reservedFunds := acct.reservedFunds.erase cleanupVersion
          fundsLowerBound := acct.fundsLowerBound +
            ((acct.reservedFunds.entry cleanupVersion 0 : Int) + fundsChanges.entry a 0).toNat }
          acct.pendingReservations s :=
        ⟨h.reset_account hget rfl rfl, h.accountId a acct hget, hcur⟩
      obtain ⟨acct₂, s₂, hrun, hinv, -, hcur₂, hb₂⟩ := retryPendingReservations_spec hret
      simp only [hneg, if_false]
      refine Except.Holds.bind (Except.holds_of_eq_ok hrun rfl) ?_
      rintro _ rfl
      dsimp only
      split_ifs with hempty
      · -- nothing reserved and nothing queued: the account is no longer tracked
        simp only [Bool.and_eq_true, List.isEmpty_iff] at hempty
        exact Except.holds_pure ⟨hinv.untrack hempty.2, hcur₂, hb₂⟩
      · exact Except.holds_pure ⟨hinv, hcur₂, hb₂⟩

theorem settleAccounts_spec {cleanupVersion : Nat} {fundsChanges : OrderedMap A Int}
    (h : Inv' (· ∈ L) (fun _ _ => False) s) (hcur : s.accumulatorVersion = next) :
    Except.Holds (· = .withdrawExceedsReservations)
      (fun s' => Inv s' ∧ s'.accumulatorVersion = next ∧
        ∀ v, Bounded v s.withdraws → Bounded v s'.withdraws)
      (settleAccounts cleanupVersion next fundsChanges L s) := by
  induction L generalizing s with
  | nil => exact ⟨h.of_due fun _ _ _ _ _ _ hc => absurd hc List.not_mem_nil, hcur, fun _ hb => hb⟩
  | cons a L ih =>
    simp only [settleAccounts]
    refine (settleAccount_spec h hcur).bind fun s' hs' => ?_
    exact (ih hs'.1 hs'.2.1).mono (fun s'' hs'' => ⟨hs''.1, hs''.2.1, fun v hb =>
      hs''.2.2 v (hs'.2.2 v hb)⟩) fun _ he => he

/-- Bumping the version: the withdraws that read the new version are due at the accounts
they wait on. -/
theorem Inv.bump (h : Inv s) (hnext : next = s.accumulatorVersion + 1)
    (hL : ∀ c, c ∈ (s.pendingSettlements.entry next OrderedMap.empty).keys → c ∈ L) :
    Inv' (· ∈ L) (fun _ _ => False) { s with
      accumulatorVersion := next
      pendingSettlements := s.pendingSettlements.erase s.accumulatorVersion } := by
  refine { h with
    queued := fun m c hq => ?_
    ahead := fun m q hq hlt hs => ?_
    delivery := h.delivery.of_eq rfl rfl rfl }
  · obtain ⟨q, hq', hc, hset, hv⟩ := h.queued m c hq
    have hlt : s.accumulatorVersion < q.accumulatorVersion := hv.resolve_right fun hv => hv.2
    refine ⟨q, hq', hc, ?_, ?_⟩
    · dsimp only
      rw [OrderedMap.entry_erase_of_ne _ _ hlt.ne']
      exact hset
    · dsimp only
      by_cases heq : next = q.accumulatorVersion
      · exact .inr ⟨heq, hL c (heq ▸ hset)⟩
      · exact .inl (by omega)
  · exact h.ahead m q hq (by dsimp only at hlt; omega) hs

/-- `settle_funds` panics only on a settlement that skips a version or withdraws more than was
reserved, and keeps the invariant. -/
theorem settleFunds_spec (settlement : FundsSettlement A) (h : Inv s) :
    Except.Holds (fun e => e = .withdrawExceedsReservations ∨ e = .settlementNotNext)
      (fun s' => Inv s' ∧ s.accumulatorVersion ≤ s'.accumulatorVersion ∧
        ∀ v, Bounded v s.withdraws → Bounded v s'.withdraws)
      (settleFunds settlement s) := by
  unfold settleFunds
  by_cases hle : settlement.nextAccumulatorVersion ≤ s.accumulatorVersion
  · simp only [hle, if_true]
    exact Except.holds_pure ⟨h, le_rfl, fun _ hb => hb⟩
  · by_cases hne : settlement.nextAccumulatorVersion ≠ s.accumulatorVersion + 1
    · simp [hle, hne]
    · have hnext : settlement.nextAccumulatorVersion = s.accumulatorVersion + 1 := not_not.1 hne
      simp only [hle, hne, if_false]
      refine (settleAccounts_spec (h.bump hnext fun c hc => ?_) rfl).mono
        (fun s' hs' => ⟨hs'.1, by have := hs'.2.1; dsimp only at this; omega, hs'.2.2⟩)
        fun e he => .inl he
      rw [mem_keys_extendSet, mem_keys_extendSet]
      exact .inl (.inr hc)

end Settle

/-! ### Runs -/

section Run

variable (fundsRead : A → Nat → Nat) (v0 : Nat)

theorem Bounded.mono {v v' : Nat} {withdraws : OrderedMap Nat (PendingWithdraw A D)}
    (h : Bounded v withdraws) (hv : v ≤ v') : Bounded v' withdraws :=
  fun m q hq => (h m q hq).trans hv

theorem inv_new : Inv (EagerState.new v0 : EagerState A D) := by
  have ht : ∀ c ac, (EagerState.new v0 : EagerState A D).trackedAccounts.get? c ≠ some ac := by
    simp [EagerState.new]
  have hw : ∀ m q, (EagerState.new v0 : EagerState A D).withdraws.get? m ≠ some q := by
    simp [EagerState.new]
  have hq : ∀ m c, ¬Queued (EagerState.new v0 : EagerState A D).trackedAccounts m c := by
    rintro m c ⟨ac, h, -⟩
    exact ht c ac h
  exact ⟨fun c ac h => absurd h (ht c ac), fun c ac h => absurd h (ht c ac),
    fun c ac h => absurd h (ht c ac), fun m c h => absurd h (hq m c),
    fun m q h => absurd h (hw m q), fun m q h => absurd h (hw m q),
    fun m q h => absurd h (hw m q),
    ⟨fun m q h => absurd h (hw m q), fun m _ h => absurd h (Nat.not_lt_zero m), fun _ _ => rfl,
      fun m q h => absurd h (hw m q)⟩⟩

/-- The states the eager scheduler reaches from `new`: `schedule_withdraws` on batches at
non-decreasing versions whose withdraws each reserve something, and `settle_funds` on any
settlement; `last` is the version of the last batch. -/
inductive Reachable : Nat → EagerState A D → Prop
  | new : Reachable 0 (EagerState.new v0)
  | schedule {last v : Nat} {s s' : EagerState A D} {ws : List (TxFundsWithdraw A D)} :
      Reachable last s → last ≤ v → (∀ w ∈ ws, w.reservations.entries ≠ []) →
      scheduleWithdraws fundsRead v ws s = .ok s' → Reachable v s'
  | settle {last : Nat} {s s' : EagerState A D} (settlement : FundsSettlement A) :
      Reachable last s → settleFunds settlement s = .ok s' → Reachable last s'

variable {fundsRead v0}

/-- The run lemma: every reachable state satisfies the invariant, and no withdraw it stores
reads a version after the last batch. -/
theorem Reachable.inv {last : Nat} {s : EagerState A D} (h : Reachable fundsRead v0 last s) :
    Inv s ∧ Bounded last s.withdraws := by
  induction h with
  | new => exact ⟨inv_new v0, fun _ _ h => absurd h (by simp [EagerState.new])⟩
  | schedule _ hle hne hrun ih =>
    obtain ⟨s'', hrun', hinv, -, hb⟩ := scheduleWithdraws_spec fundsRead ih.1 (ih.2.mono hle) hne
    obtain rfl : s'' = _ := Except.ok.inj (hrun'.symm.trans hrun)
    exact ⟨hinv, hb⟩
  | settle settlement _ hrun ih =>
    have hpost := settleFunds_spec settlement ih.1
    rw [hrun] at hpost
    exact ⟨hpost.1, hpost.2.2 _ ih.2⟩

variable {last : Nat} {s : EagerState A D}

theorem Inv.received_length_le (h : Inv s) (n : Nat) : (received s.delivered n).length ≤ 1 := by
  cases hn : s.withdraws.get? n with
  | some p =>
    rcases h.delivery.stored n p hn with ⟨-, hnil⟩ | ⟨-, _, -, hone⟩
    · simp [hnil]
    · simp [hone]
  | none =>
    by_cases hlt : n < s.channels
    · obtain ⟨d, hd⟩ := h.delivery.skipped n hn hlt
      simp [hd]
    · simp [h.delivery.fresh n (Nat.not_lt.1 hlt)]

/-- An unanswered withdraw waits on an account, so it reads a version ahead. -/
theorem Inv.unanswered (h : Inv s) {n : Nat} (hn : n < s.channels)
    (hnil : received s.delivered n = []) :
    ∃ p, s.withdraws.get? n = some p ∧ s.accumulatorVersion < p.accumulatorVersion := by
  cases hget : s.withdraws.get? n with
  | none =>
    obtain ⟨d, hd⟩ := h.delivery.skipped n hget hn
    simp [hd] at hnil
  | some p =>
    rcases h.delivery.stored n p hget with ⟨hs, -⟩ | ⟨-, _, -, hone⟩
    · obtain ⟨hne, hall⟩ := h.waiting n p hget hs
      obtain ⟨a, ha⟩ := List.exists_mem_of_ne_nil _ hne
      obtain ⟨q, hq, -, -, hv⟩ := h.queued n a ((hall a ha).resolve_right id)
      obtain rfl : q = p := Option.some.inj (hq.symm.trans hget)
      exact ⟨q, rfl, hv.resolve_right fun hv => hv.2⟩
    · simp [hone] at hnil

/-! Three batches from a scheduler at version 1, on account `1` with funds of `10`: one at
version 0, which is told to skip; one at version 1 withdrawing 5, which the funds cover; and
one at version 2 withdrawing 50, which waits on the account for a later version. -/

def ThreeBatches.funds : Nat → Nat → Nat := fun _ _ => 10

def ThreeBatches.withdraw (txDigest amount : Nat) : TxFundsWithdraw Nat Nat :=
  ⟨txDigest, OrderedMap.empty.insert 1 amount⟩

/-- The state a batch leaves, where it returns one. -/
def ThreeBatches.after (v : Nat) (ws : List (TxFundsWithdraw Nat Nat))
    (s : EagerState Nat Nat) : EagerState Nat Nat :=
  (scheduleWithdraws ThreeBatches.funds v ws s).toOption.getD s

def ThreeBatches.state : EagerState Nat Nat :=
  ThreeBatches.after 2 [ThreeBatches.withdraw 8 50]
    (ThreeBatches.after 1 [ThreeBatches.withdraw 7 5]
      (ThreeBatches.after 0 [ThreeBatches.withdraw 6 5] (EagerState.new 1)))

theorem ThreeBatches.reachable : Reachable ThreeBatches.funds 1 2 ThreeBatches.state := by
  have hrun₁ : scheduleWithdraws ThreeBatches.funds 0 [ThreeBatches.withdraw 6 5]
      (EagerState.new 1) =
      .ok (ThreeBatches.after 0 [ThreeBatches.withdraw 6 5] (EagerState.new 1)) := rfl
  have h₁ := Reachable.schedule Reachable.new le_rfl (by decide) hrun₁
  have hrun₂ : scheduleWithdraws ThreeBatches.funds 1 [ThreeBatches.withdraw 7 5]
      (ThreeBatches.after 0 [ThreeBatches.withdraw 6 5] (EagerState.new 1)) =
      .ok (ThreeBatches.after 1 [ThreeBatches.withdraw 7 5]
        (ThreeBatches.after 0 [ThreeBatches.withdraw 6 5] (EagerState.new 1))) := rfl
  have h₂ := Reachable.schedule h₁ (by decide) (by decide) hrun₂
  have hrun₃ : scheduleWithdraws ThreeBatches.funds 2 [ThreeBatches.withdraw 8 50]
      (ThreeBatches.after 1 [ThreeBatches.withdraw 7 5]
        (ThreeBatches.after 0 [ThreeBatches.withdraw 6 5] (EagerState.new 1))) =
      .ok ThreeBatches.state := rfl
  exact Reachable.schedule h₂ (by decide) (by decide) hrun₃

/-- Every transaction the eager scheduler is given gets at most one answer, and goes without
one only while the version it reads is still ahead of the accumulator. -/
theorem eager_answers_at_most_once (h : Reachable fundsRead v0 last s) (n : Nat) :
    (received s.delivered n).length ≤ 1 ∧
      (n < s.channels → received s.delivered n = [] →
        ∃ p, s.withdraws.get? n = some p ∧ s.accumulatorVersion < p.accumulatorVersion) :=
  ⟨h.inv.1.received_length_le n, fun hn hnil => h.inv.1.unanswered hn hnil⟩

/-- The withdraw of 50 has no answer yet, and it reads version 2, ahead of the accumulator. -/
theorem eager_answers_at_most_once_waiting :
    Reachable ThreeBatches.funds 1 2 ThreeBatches.state ∧ ThreeBatches.state.channels = 3 ∧
      received ThreeBatches.state.delivered 2 = [] ∧
      (received ThreeBatches.state.delivered 2).length ≤ 1 ∧
      (2 < ThreeBatches.state.channels → received ThreeBatches.state.delivered 2 = [] →
        ∃ p, ThreeBatches.state.withdraws.get? 2 = some p ∧
          ThreeBatches.state.accumulatorVersion < p.accumulatorVersion) :=
  ⟨ThreeBatches.reachable, rfl, rfl, eager_answers_at_most_once ThreeBatches.reachable 2⟩

/-- The answer to a scheduled withdraw is about its own transaction and says whether its
funds suffice; only the transactions of a batch whose version was settled are told to
skip. -/
theorem eager_answer_of_scheduled (h : Reachable fundsRead v0 last s) (n : Nat) :
    (∀ p, s.withdraws.get? n = some p → ∀ r ∈ received s.delivered n,
      r.txDigest = p.txDigest ∧ r.status ≠ .skipSchedule) ∧
      (s.withdraws.get? n = none → n < s.channels →
        ∃ d, received s.delivered n = [⟨d, .skipSchedule⟩]) := by
  obtain ⟨hinv, -⟩ := h.inv
  refine ⟨fun p hp r hr => ?_, hinv.delivery.skipped n⟩
  rcases hinv.delivery.stored n p hp with ⟨-, hnil⟩ | ⟨-, status, hst, hone⟩
  · simp [hnil] at hr
  · rw [hone, List.mem_singleton] at hr
    subst hr
    exact ⟨rfl, hst⟩

/-- The withdraw of the first batch was told to skip and is not stored; that of the second
is stored and has its answer, sufficient funds. -/
theorem eager_answer_of_scheduled_skipAndFunded :
    Reachable ThreeBatches.funds 1 2 ThreeBatches.state ∧
      ThreeBatches.state.withdraws.get? 0 = none ∧
      received ThreeBatches.state.delivered 1 = [⟨7, .sufficientFunds⟩] ∧
      ((∀ p, ThreeBatches.state.withdraws.get? 0 = some p →
        ∀ r ∈ received ThreeBatches.state.delivered 0,
          r.txDigest = p.txDigest ∧ r.status ≠ .skipSchedule) ∧
        (ThreeBatches.state.withdraws.get? 0 = none → 0 < ThreeBatches.state.channels →
          ∃ d, received ThreeBatches.state.delivered 0 = [⟨d, .skipSchedule⟩])) ∧
      ((∀ p, ThreeBatches.state.withdraws.get? 1 = some p →
        ∀ r ∈ received ThreeBatches.state.delivered 1,
          r.txDigest = p.txDigest ∧ r.status ≠ .skipSchedule) ∧
        (ThreeBatches.state.withdraws.get? 1 = none → 1 < ThreeBatches.state.channels →
          ∃ d, received ThreeBatches.state.delivered 1 = [⟨d, .skipSchedule⟩])) :=
  ⟨ThreeBatches.reachable, rfl, rfl, eager_answer_of_scheduled ThreeBatches.reachable 0,
    eager_answer_of_scheduled ThreeBatches.reachable 1⟩

/-- From every reachable state, `schedule_withdraws` on a batch at a version no earlier than
the last one, whose withdraws each reserve something, returns: no assertion and no `unwrap`
of the scheduler fires. -/
theorem scheduleWithdraws_never_panics {v : Nat} {ws : List (TxFundsWithdraw A D)}
    (h : Reachable fundsRead v0 last s) (hle : last ≤ v)
    (hne : ∀ w ∈ ws, w.reservations.entries ≠ []) :
    ∃ s', scheduleWithdraws fundsRead v ws s = .ok s' := by
  obtain ⟨hinv, hb⟩ := h.inv
  obtain ⟨s', hrun, -⟩ := scheduleWithdraws_spec fundsRead hinv (hb.mono hle) hne
  exact ⟨s', hrun⟩

/-- A fourth batch, at the version of the last one, on the account the third withdraw waits on. -/
theorem scheduleWithdraws_never_panics_fourthBatch :
    Reachable ThreeBatches.funds 1 2 ThreeBatches.state ∧
      ∃ s', scheduleWithdraws ThreeBatches.funds 2 [ThreeBatches.withdraw 9 3]
        ThreeBatches.state = .ok s' :=
  ⟨ThreeBatches.reachable,
    scheduleWithdraws_never_panics ThreeBatches.reachable le_rfl (by decide)⟩

end Run

end FundsWithdraw

end Rtd
