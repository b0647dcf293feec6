import Rtd.CommitRule
import Rtd.UniversalCommitter
import Rtd.Aligned

/-!
Agreement of `UniversalCommitter::try_decide` across views of one DAG, for
committers of wave length 3.

A run of `try_decide` decides the elected slots from the highest round down, each
from the statuses already in its deque; `Run` records that, listing the slots from
the lowest up. Two runs over views of one DAG visit the same slots from the last
decided one up, one of them possibly further, and match at every position both
reach (`run_aligned`); within one run a slot visited twice gets one status
(`run_status_eq_of_slot`). Together they give agreement on every decided slot.
-/

set_option autoImplicit false

namespace Rtd

namespace LeaderStatus

/-- The slot a status is about. -/
def slot : LeaderStatus → Slot
  | commit b => b.slot
  | skip s => s
  | undecided s => s

/-- Two statuses agree unless one commits a block that the other does not. -/
def Agree : LeaderStatus → LeaderStatus → Prop
  | commit b, commit b' => b = b'
  | commit _, skip _ => False
  | skip _, commit _ => False
  | _, _ => True

/-- Statuses at one position of two runs: one slot, agreeing. -/
def Matches (st st' : LeaderStatus) : Prop := st.slot = st'.slot ∧ st.Agree st'

/-- A status for the slot `s` that commits only blocks of the view. -/
def OfSlot (v : DagView) (s : Slot) (st : LeaderStatus) : Prop :=
  st.slot = s ∧ ∀ b, st = .commit b → b ∈ v.blocks

theorem round_eq (st : LeaderStatus) : st.round = st.slot.round := by
  cases st <;> rfl

theorem agree_refl (st : LeaderStatus) : st.Agree st := by
  cases st <;> simp [Agree]

theorem agree_symm {st st' : LeaderStatus} (h : st.Agree st') : st'.Agree st := by
  cases st <;> cases st' <;> simp_all [Agree]

theorem eq_of_matches {st st' : LeaderStatus} (h : st.Matches st')
    (hd : st.isDecided = true) (hd' : st'.isDecided = true) : st = st' := by
  obtain ⟨hslot, hagree⟩ := h
  cases st <;> cases st' <;> simp_all [Agree, slot, isDecided]

end LeaderStatus

/-- The status a decided leader records, without the direct-commit flag. -/
def DecidedLeader.status : DecidedLeader → LeaderStatus
  | .commit b _ => .commit b
  | .skip s => .skip s

@[simp] theorem DecidedLeader.slot_status (x : DecidedLeader) : x.status.slot = x.slot := by
  cases x <;> rfl

theorem LeaderStatus.intoDecidedLeader_spec {st : LeaderStatus} {direct : Bool}
    {x : DecidedLeader} (h : st.intoDecidedLeader direct = some x) :
    st.isDecided = true ∧ x.status = st := by
  cases st <;> simp only [LeaderStatus.intoDecidedLeader, Option.some.injEq, reduceCtorEq] at h <;>
    subst h <;> exact ⟨rfl, rfl⟩

namespace BaseCommitter

variable (self : BaseCommitter) (v : DagView) (s : Slot)

/-! ### What each rule answers, and what it depends on -/

theorem tryDirectDecide_ofSlot {st : LeaderStatus} (h : self.tryDirectDecide v s = .ok st) :
    st.OfSlot v s := by
  rcases tryDirectDecide_cases self h with ⟨rfl, -⟩ | ⟨B, hB, rfl, -⟩ | rfl
  · exact ⟨rfl, fun _ hb => by cases hb⟩
  · rw [DagView.mem_getUncommittedBlocksAtSlot] at hB
    exact ⟨hB.2, fun b hb => by cases hb; exact hB.1⟩
  · exact ⟨rfl, fun _ hb => by cases hb⟩

theorem decideLeaderFromAnchor_ofSlot {A : Block} {st : LeaderStatus}
    (h : self.decideLeaderFromAnchor v A s = .ok st) : st.OfSlot v s := by
  unfold decideLeaderFromAnchor at h
  dsimp only at h
  split at h
  · cases h
  split at h
  · rename_i B hlast
    cases h
    have hB := List.mem_of_getLast? hlast
    rw [List.mem_filter, DagView.mem_getUncommittedBlocksAtSlot] at hB
    exact ⟨hB.1.2, fun b hb => by cases hb; exact hB.1.1⟩
  · cases h
    exact ⟨rfl, fun _ hb => by cases hb⟩

theorem decideFromAnchors_ofSlot {l : List LeaderStatus} {st : LeaderStatus}
    (h : self.decideFromAnchors v s l = .ok st) : st.OfSlot v s := by
  induction l with
  | nil =>
    cases h
    exact ⟨rfl, fun _ hb => by cases hb⟩
  | cons x rest ih =>
    cases x with
    | commit A => exact decideLeaderFromAnchor_ofSlot self v s h
    | skip _ => exact ih h
    | undecided _ =>
      cases h
      exact ⟨rfl, fun _ hb => by cases hb⟩

theorem tryIndirectDecide_ofSlot {prior : List LeaderStatus} {st : LeaderStatus}
    (h : self.tryIndirectDecide v s prior = .ok st) : st.OfSlot v s :=
  decideFromAnchors_ofSlot self v s h

/-- With wave length 3 the anchors are the statuses three rounds up or more. -/
theorem tryIndirectDecide_of_waveLength (hw : self.options.waveLength = 3)
    (prior : List LeaderStatus) :
    self.tryIndirectDecide v s prior =
      self.decideFromAnchors v s (prior.filter fun x => s.round + 3 ≤ x.round) := by
  rw [tryIndirectDecide, hw]

variable {self} {k : BaseCommitter} (hc : self.committee = k.committee)
  (hd : self.decisionRound (self.waveNumber s.round) = k.decisionRound (k.waveNumber s.round))
include hc hd

/-- The direct rule reads the committer only through its committee and the slot's
decision round. -/
theorem tryDirectDecide_congr : self.tryDirectDecide v s = k.tryDirectDecide v s := by
  have hblame : self.enoughLeaderBlame v = k.enoughLeaderBlame v := by
    funext round leader
    simp only [enoughLeaderBlame, hc]
  have hsupport : self.enoughLeaderSupport v = k.enoughLeaderSupport v := by
    funext round B
    simp only [enoughLeaderSupport, isCertificate_eq_of_committee hc, hc]
  simp only [tryDirectDecide, hblame, hsupport, hd]

theorem decideLeaderFromAnchor_congr {A : Block} {st : LeaderStatus}
    (h : self.decideLeaderFromAnchor v A s = .ok st) :
    k.decideLeaderFromAnchor v A s = .ok st := by
  unfold decideLeaderFromAnchor at h ⊢
  dsimp only at h ⊢
  rw [hd] at h
  simp only [isCertificate_eq_of_committee hc] at h
  split at h
  · cases h
  · rename_i hlen
    rw [if_neg hlen]
    exact h

theorem decideFromAnchors_congr {l : List LeaderStatus} {st : LeaderStatus}
    (h : self.decideFromAnchors v s l = .ok st) : k.decideFromAnchors v s l = .ok st := by
  induction l with
  | nil => exact h
  | cons x rest ih =>
    cases x with
    | commit A => exact decideLeaderFromAnchor_congr v s hc hd h
    | skip _ => exact ih h
    | undecided _ => exact h

end BaseCommitter

namespace UniversalCommitter

/-! ### Runs of the decision loop -/

/-- How the loop decides the slot `s` with committer `k`, given the statuses already
in the deque: by the direct rule when it decides, by the indirect rule otherwise. -/
def Decides (v : DagView) (k : BaseCommitter) (s : Slot) (prior : List LeaderStatus)
    (st : LeaderStatus) (d : Decision) : Prop :=
  (k.tryDirectDecide v s = .ok st ∧ st.isDecided = true ∧ d = .direct) ∨
  (∃ st₀, k.tryDirectDecide v s = .ok st₀ ∧ st₀.isDecided = false ∧
    k.tryIndirectDecide v s prior = .ok st ∧ d = .indirect)

/-- The deque after deciding the slots `ps`, listed from the last decided one, the
lowest, up: each entry is decided from the entries above it. -/
inductive Run (v : DagView) :
    List (BaseCommitter × Slot) → List (LeaderStatus × Decision) → Prop
  | nil : Run v [] []
  | cons {k : BaseCommitter} {s : Slot} {ps : List (BaseCommitter × Slot)}
      {st : LeaderStatus} {d : Decision} {L : List (LeaderStatus × Decision)} :
      Run v ps L → Decides v k s (L.map Prod.fst) st d → Run v ((k, s) :: ps) ((st, d) :: L)

/-- Nothing in the loop panics for this committer and slot, whatever the deque
holds, as long as it commits blocks of the view only. -/
def CanDecide (v : DagView) (k : BaseCommitter) (s : Slot) : Prop :=
  (∃ st, k.tryDirectDecide v s = .ok st) ∧
    ∀ prior : List LeaderStatus, (∀ b, .commit b ∈ prior → b ∈ v.blocks) →
      ∃ st, k.tryIndirectDecide v s prior = .ok st

variable {v : DagView}

theorem Decides.ofSlot {k : BaseCommitter} {s : Slot} {prior : List LeaderStatus}
    {st : LeaderStatus} {d : Decision} (h : Decides v k s prior st d) : st.OfSlot v s := by
  rcases h with ⟨hst, -, -⟩ | ⟨_, -, -, hst, -⟩
  · exact k.tryDirectDecide_ofSlot v s hst
  · exact k.tryIndirectDecide_ofSlot v s hst

theorem Run.slots {ps : List (BaseCommitter × Slot)} {L : List (LeaderStatus × Decision)}
    (h : Run v ps L) : (L.map Prod.fst).map LeaderStatus.slot = ps.map Prod.snd := by
  induction h with
  | nil => rfl
  | cons _ hdec ih => simp [ih, hdec.ofSlot.1]

theorem Run.length_eq {ps : List (BaseCommitter × Slot)} {L : List (LeaderStatus × Decision)}
    (h : Run v ps L) : L.length = ps.length := by
  simpa using congrArg List.length h.slots

theorem Run.commit_mem {ps : List (BaseCommitter × Slot)} {L : List (LeaderStatus × Decision)}
    (h : Run v ps L) : ∀ b, .commit b ∈ L.map Prod.fst → b ∈ v.blocks := by
  induction h with
  | nil => simp
  | cons _ hdec ih =>
    intro b hb
    rcases List.mem_cons.1 hb with hb | hb
    · exact hdec.ofSlot.2 b hb.symm
    · exact ih b hb

theorem Run.decides_getElem {ps : List (BaseCommitter × Slot)}
    {L : List (LeaderStatus × Decision)} (h : Run v ps L) {i : Nat} (hi : i < L.length) :
    ∃ hi' : i < ps.length, Decides v ps[i].1 ps[i].2 ((L.drop (i + 1)).map Prod.fst)
      L[i].1 L[i].2 := by
  induction h generalizing i with
  | nil => simp at hi
  | cons hrun hdec ih =>
    cases i with
    | zero => exact ⟨by simp, hdec⟩
    | succ i =>
      obtain ⟨hi', hdec'⟩ := ih (by simpa using hi)
      exact ⟨by simpa using hi', hdec'⟩

/-! ### The loops build runs -/

variable (v) (lastDecided : Slot)

/-- The slots the inner loop decides in a round, in order, and whether it reached the
last decided slot. -/
def roundSlots (round : Nat) : List BaseCommitter → List (BaseCommitter × Slot) × Bool
  | [] => ([], false)
  | committer :: rest =>
    match committer.electLeader round with
    | none => roundSlots round rest
    | some slot =>
      if slot = lastDecided then ([], true)
      else ((committer, slot) :: (roundSlots round rest).1, (roundSlots round rest).2)

/-- The slots the outer loop decides, in order. -/
def runSlots (committers : List BaseCommitter) : List Nat → List (BaseCommitter × Slot)
  | [] => []
  | round :: rest =>
    if (roundSlots lastDecided round committers).2 then (roundSlots lastDecided round committers).1
    else (roundSlots lastDecided round committers).1 ++ runSlots committers rest

/-- The slots `try_decide` decides, in order. -/
def slotsToDecide (u : UniversalCommitter) : List (BaseCommitter × Slot) :=
  runSlots lastDecided u.committers.reverse
    (decideRoundsRange (lastRound lastDecided u) v.highestAcceptedRound)

variable {v}

theorem decideRound_run {round : Nat} {ks : List BaseCommitter}
    (hok : ∀ k ∈ ks, ∀ slot, k.electLeader round = some slot → CanDecide v k slot) :
    ∀ {ps : List (BaseCommitter × Slot)} {leaders : List (LeaderStatus × Decision)},
      Run v ps leaders →
      ∃ L, decideRound v lastDecided round ks leaders =
          .ok (L, (roundSlots lastDecided round ks).2) ∧
        Run v ((roundSlots lastDecided round ks).1.reverse ++ ps) L := by
  induction ks with
  | nil => exact fun hrun => ⟨_, rfl, hrun⟩
  | cons k rest ih =>
    intro ps leaders hrun
    have hok' : ∀ k ∈ rest, ∀ slot, k.electLeader round = some slot → CanDecide v k slot :=
      fun k hk => hok k (List.mem_cons_of_mem _ hk)
    cases hel : k.electLeader round with
    | none =>
      simp only [decideRound, roundSlots, hel]
      exact ih hok' hrun
    | some slot =>
      by_cases hld : slot = lastDecided
      · simp only [decideRound, roundSlots, hel, hld, if_true]
        exact ⟨_, rfl, hrun⟩
      obtain ⟨⟨st, hst⟩, hind⟩ := hok k List.mem_cons_self slot hel
      -- the new entry is decided from the deque so far, which lies above it
      cases hdecided : st.isDecided with
      | true =>
        obtain ⟨L, hL, hrunL⟩ := ih hok' (.cons hrun (.inl ⟨hst, hdecided, rfl⟩))
        refine ⟨L, ?_, ?_⟩
        · simp only [decideRound, roundSlots, hel, hld, if_false, hst, bind, Except.bind,
            hdecided, if_true]
          exact hL
        · simpa [roundSlots, hel, hld] using hrunL
      | false =>
        obtain ⟨st', hst'⟩ := hind _ hrun.commit_mem
        obtain ⟨L, hL, hrunL⟩ := ih hok' (.cons hrun (.inr ⟨st, hst, hdecided, hst', rfl⟩))
        refine ⟨L, ?_, ?_⟩
        · simp only [decideRound, roundSlots, hel, hld, if_false, hst, bind, Except.bind,
            hdecided, Bool.false_eq_true, hst']
          exact hL
        · simpa [roundSlots, hel, hld] using hrunL

theorem decideRounds_run {ks : List BaseCommitter} (rounds : List Nat)
    (hok : ∀ k ∈ ks, ∀ round slot, k.electLeader round = some slot → CanDecide v k slot) :
    ∀ {ps : List (BaseCommitter × Slot)} {leaders : List (LeaderStatus × Decision)},
      Run v ps leaders →
      ∃ L, decideRounds v lastDecided ks rounds leaders = .ok L ∧
        Run v ((runSlots lastDecided ks rounds).reverse ++ ps) L := by
  induction rounds with
  | nil => exact fun hrun => ⟨_, rfl, hrun⟩
  | cons round rest ih =>
    intro ps leaders hrun
    obtain ⟨L, hL, hrunL⟩ := decideRound_run lastDecided (fun k hk => hok k hk round) hrun
    cases hstop : (roundSlots lastDecided round ks).2 with
    | true =>
      refine ⟨L, ?_, ?_⟩
      · simp only [decideRounds, hL, bind, Except.bind, hstop, if_true]
      · simpa [runSlots, hstop] using hrunL
    | false =>
      obtain ⟨L', hL', hrunL'⟩ := ih hrunL
      refine ⟨L', ?_, ?_⟩
      · simp only [decideRounds, hL, bind, Except.bind, hstop, Bool.false_eq_true, if_false]
        exact hL'
      · simpa [runSlots, hstop] using hrunL'

/-- `try_decide` returns the decided prefix of a run over the slots it visits. -/
theorem tryDecide_run {u : UniversalCommitter}
    (hok : ∀ k ∈ u.committers, ∀ round slot, k.electLeader round = some slot →
      CanDecide v k slot) :
    ∃ L, u.tryDecide v lastDecided = .ok (decidedPrefix L) ∧
      Run v (slotsToDecide v lastDecided u).reverse L := by
  obtain ⟨L, hL, hrun⟩ := decideRounds_run lastDecided
    (decideRoundsRange (lastRound lastDecided u) v.highestAcceptedRound)
    (fun k hk => hok k (List.mem_reverse.1 hk)) Run.nil
  refine ⟨L, ?_, by simpa [slotsToDecide] using hrun⟩
  simp only [tryDecide, hL, bind, Except.bind, pure, Except.pure]

/-! ### The slots a run visits -/

variable {lastDecided}

theorem mem_roundSlots {round : Nat} {ks : List BaseCommitter} {p : BaseCommitter × Slot}
    (h : p ∈ (roundSlots lastDecided round ks).1) :
    p.1 ∈ ks ∧ p.1.electLeader round = some p.2 := by
  induction ks with
  | nil => simp [roundSlots] at h
  | cons k rest ih =>
    simp only [roundSlots] at h
    split at h
    · exact (ih h).imp_left (List.mem_cons_of_mem _)
    · rename_i slot hel
      split at h
      · simp at h
      · rcases List.mem_cons.1 h with rfl | h
        · exact ⟨List.mem_cons_self, hel⟩
        · exact (ih h).imp_left (List.mem_cons_of_mem _)

/-- The inner loop stops only in the round of the last decided slot. -/
theorem round_of_roundSlots_stop {round : Nat} {ks : List BaseCommitter}
    (h : (roundSlots lastDecided round ks).2 = true) : round = lastDecided.round := by
  induction ks with
  | nil => simp [roundSlots] at h
  | cons k rest ih =>
    simp only [roundSlots] at h
    split at h
    · exact ih h
    · rename_i slot hel
      split at h
      · rename_i hld
        rw [← hld, k.round_of_electLeader hel]
      · exact ih h

theorem mem_runSlots {ks : List BaseCommitter} {rounds : List Nat}
    {p : BaseCommitter × Slot} (h : p ∈ runSlots lastDecided ks rounds) :
    p.1 ∈ ks ∧ ∃ round ∈ rounds, p.1.electLeader round = some p.2 := by
  induction rounds with
  | nil => simp [runSlots] at h
  | cons round rest ih =>
    simp only [runSlots] at h
    split at h
    · exact (mem_roundSlots h).imp_right fun hel => ⟨round, List.mem_cons_self, hel⟩
    · rcases List.mem_append.1 h with h | h
      · exact (mem_roundSlots h).imp_right fun hel => ⟨round, List.mem_cons_self, hel⟩
      · obtain ⟨hk, r, hr, hel⟩ := ih h
        exact ⟨hk, r, List.mem_cons_of_mem _ hr, hel⟩

/-- Over decreasing rounds the visited slots go down. -/
theorem runSlots_pairwise {ks : List BaseCommitter} {rounds : List Nat}
    (hrounds : rounds.Pairwise (· ≥ ·)) :
    (runSlots lastDecided ks rounds).Pairwise (fun p q => q.2.round ≤ p.2.round) := by
  induction rounds with
  | nil => simp [runSlots]
  | cons round rest ih =>
    obtain ⟨hhead, hrest⟩ := List.pairwise_cons.1 hrounds
    -- the slots of one round all sit in that round
    have hround : ∀ p ∈ (roundSlots lastDecided round ks).1, p.2.round = round := fun p hp =>
      p.1.round_of_electLeader (mem_roundSlots hp).2
    have hsame : ((roundSlots lastDecided round ks).1).Pairwise
        (fun p q => q.2.round ≤ p.2.round) :=
      List.Pairwise.imp_of_mem (fun hp hq _ => by rw [hround _ hp, hround _ hq])
        (List.pairwise_of_forall fun _ _ => trivial)
    simp only [runSlots]
    split
    · exact hsame
    · refine List.pairwise_append.2 ⟨hsame, ih hrest, fun p hp q hq => ?_⟩
      obtain ⟨-, r, hr, hel⟩ := mem_runSlots hq
      rw [hround p hp, q.1.round_of_electLeader hel]
      exact hhead r hr

theorem decideRoundsRange_append (lastRound : Nat) {h₁ h₂ : Nat} (h : h₂ ≤ h₁) :
    ∃ xs, decideRoundsRange lastRound h₁ = xs ++ decideRoundsRange lastRound h₂ ∧
      (decideRoundsRange lastRound h₂ = [] ∨ ∀ r ∈ xs, lastRound < r) := by
  unfold decideRoundsRange
  have hrange : List.range' lastRound (h₁ - 2 + 1 - lastRound) =
      List.range' lastRound (h₂ - 2 + 1 - lastRound) ++
        List.range' (lastRound + (h₂ - 2 + 1 - lastRound))
          ((h₁ - 2 + 1 - lastRound) - (h₂ - 2 + 1 - lastRound)) := by
    rw [List.range'_append_1]
    congr 1
    omega
  refine ⟨_, by rw [hrange, List.reverse_append], ?_⟩
  by_cases hn : h₂ - 2 + 1 - lastRound = 0
  · left
    simp [hn]
  · right
    intro r hr
    rw [List.mem_reverse, List.mem_range'_1] at hr
    omega

theorem runSlots_append {ks : List BaseCommitter} {xs ys : List Nat}
    (hxs : ∀ r ∈ xs, r ≠ lastDecided.round) :
    runSlots lastDecided ks (xs ++ ys) = runSlots lastDecided ks xs ++ runSlots lastDecided ks ys := by
  induction xs with
  | nil => rfl
  | cons r rest ih =>
    have hstop : (roundSlots lastDecided r ks).2 = false := by
      by_contra hstop
      exact hxs r List.mem_cons_self
        (round_of_roundSlots_stop (Bool.not_eq_false _ ▸ hstop))
    simp only [List.cons_append, runSlots, hstop, Bool.false_eq_true, if_false,
      ih fun r' hr' => hxs r' (List.mem_cons_of_mem _ hr'), List.append_assoc]

theorem round_le_lastRound (lastDecided : Slot) (u : UniversalCommitter) :
    lastDecided.round ≤ lastRound lastDecided u := by
  unfold lastRound
  split <;> omega

/-- A view with fewer rounds visits the last slots that a view with more visits. -/
theorem slotsToDecide_suffix (u : UniversalCommitter) {v₁ v₂ : DagView}
    (h : v₂.highestAcceptedRound ≤ v₁.highestAcceptedRound) :
    slotsToDecide v₂ lastDecided u <:+ slotsToDecide v₁ lastDecided u := by
  obtain ⟨xs, heq, hcase⟩ := decideRoundsRange_append (lastRound lastDecided u) h
  unfold slotsToDecide
  rw [heq]
  rcases hcase with hnil | hgt
  · rw [hnil]
    exact List.nil_suffix
  · have hle := round_le_lastRound lastDecided u
    rw [runSlots_append fun r hr => by have := hgt r hr; omega]
    exact List.suffix_append _ _

/-- Two views visit the same slots from the last decided one up, one possibly more. -/
theorem slotsToDecide_comparable (u : UniversalCommitter) (v₁ v₂ : DagView) :
    (slotsToDecide v₁ lastDecided u).reverse <+: (slotsToDecide v₂ lastDecided u).reverse ∨
      (slotsToDecide v₂ lastDecided u).reverse <+: (slotsToDecide v₁ lastDecided u).reverse := by
  rcases le_total v₁.highestAcceptedRound v₂.highestAcceptedRound with h | h
  · exact .inl (slotsToDecide_suffix u h).reverse
  · exact .inr (slotsToDecide_suffix u h).reverse

theorem slotsToDecide_sorted (u : UniversalCommitter) :
    (slotsToDecide v lastDecided u).reverse.Pairwise (fun p q => p.2.round ≤ q.2.round) := by
  rw [List.pairwise_reverse]
  apply runSlots_pairwise
  unfold decideRoundsRange
  rw [List.pairwise_reverse]
  exact List.Pairwise.imp (fun h => h.le) List.pairwise_lt_range'

/-! ### Agreement -/

/-- The first committed anchor of two aligned anchor lists, each after skips only,
sits at one position and so is one block. -/
theorem first_anchor_eq {pre₁ rest₁ pre₂ rest₂ : List LeaderStatus} {A₁ A₂ : Block}
    (hpre₁ : ∀ x ∈ pre₁, ∃ s, x = .skip s) (hpre₂ : ∀ x ∈ pre₂, ∃ s, x = .skip s)
    (hal : Aligned LeaderStatus.Matches (pre₁ ++ .commit A₁ :: rest₁)
      (pre₂ ++ .commit A₂ :: rest₂)) : A₁ = A₂ := by
  induction pre₁ generalizing pre₂ with
  | nil =>
    cases pre₂ with
    | nil => exact (Aligned.cons_inv hal).1.2
    | cons y pre₂ =>
      obtain ⟨s, rfl⟩ := hpre₂ y List.mem_cons_self
      exact (Aligned.cons_inv hal).1.2.elim
  | cons x pre₁ ih =>
    obtain ⟨s, rfl⟩ := hpre₁ x List.mem_cons_self
    cases pre₂ with
    | nil => exact (Aligned.cons_inv hal).1.2.elim
    | cons y pre₂ =>
      exact ih (fun x hx => hpre₁ x (List.mem_cons_of_mem _ hx))
        (fun y hy => hpre₂ y (List.mem_cons_of_mem _ hy)) (Aligned.cons_inv hal).2

/-- A committer and a slot it elects, as the safety argument takes them: of the DAG's
committee and of wave length 3. -/
def Elects (c : Committee) (k : BaseCommitter) (s : Slot) : Prop :=
  k.committee = c ∧ k.options.waveLength = 3 ∧ ∃ round, k.electLeader round = some s

theorem Elects.decisionRound {c : Committee} {k : BaseCommitter} {s : Slot} (h : Elects c k s) :
    k.decisionRound (k.waveNumber s.round) = s.round + 2 := by
  obtain ⟨-, hw, round, hel⟩ := h
  exact (k.decisionRound_of_electLeader hw hel).2

/-- A decided indirect answer comes from a committed anchor three rounds up or more,
after skipped ones only. -/
theorem indirect_anchor {k : BaseCommitter} {s : Slot} {prior : List LeaderStatus}
    {st : LeaderStatus} (hw : k.options.waveLength = 3)
    (hprior : ∀ b, .commit b ∈ prior → b ∈ v.blocks)
    (h : k.tryIndirectDecide v s prior = .ok st) (hst : st.isDecided = true) :
    ∃ pre A rest, prior.filter (fun x => s.round + 3 ≤ x.round) = pre ++ .commit A :: rest ∧
      (∀ x ∈ pre, ∃ s', x = .skip s') ∧ A ∈ v.blocks ∧ s.round + 2 < A.round ∧
      k.decideLeaderFromAnchor v A s = .ok st := by
  rw [k.tryIndirectDecide_of_waveLength v s hw] at h
  obtain ⟨pre, A, rest, hl, hpre, hA⟩ := k.decideFromAnchors_decided v s h hst
  have hmem : LeaderStatus.commit A ∈ prior.filter (fun x => s.round + 3 ≤ x.round) := by
    rw [hl]
    exact List.mem_append_right _ List.mem_cons_self
  rw [List.mem_filter, decide_eq_true_eq] at hmem
  exact ⟨pre, A, rest, hl, hpre, hprior A hmem.1, by simp [LeaderStatus.round] at hmem; omega, hA⟩

/-- With quorums that meet, a committer of wave length 3 never panics, whatever
anchors of the view the deque holds. -/
theorem canDecide_of_elects {c : Committee} {G : BlockDag c} (hq : G.QuorumsMeet)
    (hQ : 0 < c.quorumThreshold.toNat) {D : DagView} (hD : G.IsView D) {k : BaseCommitter}
    {s : Slot} (he : Elects c k s) : CanDecide D k s := by
  refine ⟨k.tryDirectDecide_ok he.1 hD he.decisionRound hq hQ, fun prior hprior => ?_⟩
  rw [k.tryIndirectDecide_of_waveLength D s he.2.1]
  refine k.decideFromAnchors_ok D s fun A hA => ?_
  exact k.decideLeaderFromAnchor_ok he.1 hD he.decisionRound hq (hprior A (List.mem_filter.1 hA).1)

section TwoViews

variable {c : Committee} {G : BlockDag c} (hq : G.QuorumsMeet) (hQ : 0 < c.quorumThreshold.toNat)
  {D₁ D₂ : DagView} (hD₁ : G.IsView D₁) (hD₂ : G.IsView D₂)
include hq hQ hD₁ hD₂

theorem direct_agree_anchor {k₁ k₂ : BaseCommitter} {s : Slot} (he₁ : Elects c k₁ s)
    (he₂ : Elects c k₂ s) {A : Block} (hA : A ∈ D₂.blocks) (hAr : s.round + 2 < A.round)
    {st₁ st₂ : LeaderStatus} (h₁ : k₁.tryDirectDecide D₁ s = .ok st₁)
    (h₂ : k₂.decideLeaderFromAnchor D₂ A s = .ok st₂) : st₁.Agree st₂ := by
  cases st₁ with
  | commit B =>
    rw [BaseCommitter.anchor_of_direct_commit hq hQ he₁.1 he₂.1 hD₁ hD₂ he₁.decisionRound
      he₂.decisionRound h₁ hA hAr h₂]
    exact LeaderStatus.agree_refl _
  | skip s' =>
    cases st₂ with
    | commit B =>
      exact BaseCommitter.anchor_not_commit_of_direct_skip hq he₁.1 he₂.1 hD₁ hD₂
        he₂.decisionRound h₁ hA h₂
    | skip _ => trivial
    | undecided _ => trivial
  | undecided _ => trivial

theorem direct_agree_direct {k₁ k₂ : BaseCommitter} {s : Slot} (he₁ : Elects c k₁ s)
    (he₂ : Elects c k₂ s) {st₁ st₂ : LeaderStatus} (h₁ : k₁.tryDirectDecide D₁ s = .ok st₁)
    (h₂ : k₂.tryDirectDecide D₂ s = .ok st₂) : st₁.Agree st₂ := by
  cases st₁ with
  | commit B =>
    cases st₂ with
    | commit B' =>
      exact BaseCommitter.direct_commit_eq hq hQ he₁.1 he₂.1 hD₁ hD₂
        he₁.decisionRound he₂.decisionRound h₁ h₂
    | skip _ =>
      exact BaseCommitter.direct_commit_not_skip hq hQ he₁.1 he₂.1 hD₁ hD₂
        he₁.decisionRound h₁ h₂
    | undecided _ => trivial
  | skip _ =>
    cases st₂ with
    | commit B' =>
      exact BaseCommitter.direct_commit_not_skip hq hQ he₂.1 he₁.1 hD₂ hD₁
        he₂.decisionRound h₂ h₁
    | skip _ => trivial
    | undecided _ => trivial
  | undecided _ => trivial

/-- One slot decided in two runs at one position, from aligned deques, gets matching
statuses: the four combinations of the direct and the indirect rule. -/
theorem decides_match {k₁ k₂ : BaseCommitter} {s : Slot} (he₁ : Elects c k₁ s)
    (he₂ : Elects c k₂ s) {P₁ P₂ : List LeaderStatus} {st₁ st₂ : LeaderStatus}
    {d₁ d₂ : Decision} (h₁ : Decides D₁ k₁ s P₁ st₁ d₁) (h₂ : Decides D₂ k₂ s P₂ st₂ d₂)
    (hP₁ : ∀ b, .commit b ∈ P₁ → b ∈ D₁.blocks) (hP₂ : ∀ b, .commit b ∈ P₂ → b ∈ D₂.blocks)
    (hal : Aligned LeaderStatus.Matches P₁ P₂) : st₁.Matches st₂ := by
  refine ⟨h₁.ofSlot.1.trans h₂.ofSlot.1.symm, ?_⟩
  rcases h₁ with ⟨hst₁, -, -⟩ | ⟨_, -, -, hst₁, -⟩ <;>
    rcases h₂ with ⟨hst₂, -, -⟩ | ⟨_, -, -, hst₂, -⟩
  · exact direct_agree_direct hq hQ hD₁ hD₂ he₁ he₂ hst₁ hst₂
  · cases hd : st₂.isDecided
    · cases st₂ <;> simp_all [LeaderStatus.isDecided, LeaderStatus.Agree]
    obtain ⟨-, A, -, -, -, hA, hAr, hanchor⟩ := indirect_anchor he₂.2.1 hP₂ hst₂ hd
    exact direct_agree_anchor hq hQ hD₁ hD₂ he₁ he₂ hA hAr hst₁ hanchor
  · cases hd : st₁.isDecided
    · cases st₁ <;> simp_all [LeaderStatus.isDecided, LeaderStatus.Agree]
    obtain ⟨-, A, -, -, -, hA, hAr, hanchor⟩ := indirect_anchor he₁.2.1 hP₁ hst₁ hd
    exact LeaderStatus.agree_symm
      (direct_agree_anchor hq hQ hD₂ hD₁ he₂ he₁ hA hAr hst₂ hanchor)
  · cases hd₁ : st₁.isDecided
    · cases st₁ <;> simp_all [LeaderStatus.isDecided, LeaderStatus.Agree]
    cases hd₂ : st₂.isDecided
    · cases st₂ <;> simp_all [LeaderStatus.isDecided, LeaderStatus.Agree]
    -- both answers come from the first committed anchor of aligned anchor lists
    obtain ⟨pre₁, A₁, rest₁, hl₁, hpre₁, hA₁, -, hanchor₁⟩ := indirect_anchor he₁.2.1 hP₁ hst₁ hd₁
    obtain ⟨pre₂, A₂, rest₂, hl₂, hpre₂, hA₂, -, hanchor₂⟩ := indirect_anchor he₂.2.1 hP₂ hst₂ hd₂
    have halF := Aligned.filter (fun x => s.round + 3 ≤ x.round)
      (fun x => s.round + 3 ≤ x.round) (fun a b hab => by
        rw [LeaderStatus.round_eq, LeaderStatus.round_eq, hab.1]) hal
    rw [hl₁, hl₂] at halF
    have hA : A₁ = A₂ := first_anchor_eq hpre₁ hpre₂ halF
    subst hA
    rw [BaseCommitter.anchor_decision_eq hq hQ he₁.1 he₂.1 hD₁ hD₂ he₁.decisionRound
      he₂.decisionRound hA₁ hA₂ hanchor₁ hanchor₂]
    exact LeaderStatus.agree_refl _

/-- Runs over two views that visit the same slots from the last decided one up
match at every position both reach. The induction follows the lower run from its
lowest slot; each slot is decided from the aligned entries above it. -/
theorem run_aligned {ps₁ ps₂ : List (BaseCommitter × Slot)}
    {L₁ L₂ : List (LeaderStatus × Decision)} (hrun₁ : Run D₁ ps₁ L₁) (hrun₂ : Run D₂ ps₂ L₂)
    (hpre : ps₁ <+: ps₂ ∨ ps₂ <+: ps₁) (helects : ∀ p ∈ ps₁, Elects c p.1 p.2) :
    Aligned (fun e₁ e₂ => e₁.1.Matches e₂.1) L₁ L₂ := by
  induction hrun₁ generalizing ps₂ L₂ with
  | nil => exact .nil_left _
  | @cons k s ps₁ st₁ d₁ L₁ hrun₁ hdec₁ ih =>
    cases hrun₂ with
    | nil => exact .nil_right _
    | @cons k' s' ps₂ st₂ d₂ L₂ hrun₂ hdec₂ =>
      have hheads : (k, s) = (k', s') ∧ (ps₁ <+: ps₂ ∨ ps₂ <+: ps₁) := by
        rcases hpre with h | h
        · obtain ⟨hh, ht⟩ := List.cons_prefix_cons.1 h
          exact ⟨hh, .inl ht⟩
        · obtain ⟨hh, ht⟩ := List.cons_prefix_cons.1 h
          exact ⟨hh.symm, .inr ht⟩
      obtain ⟨hhead, htail⟩ := hheads
      cases hhead
      have hal := ih hrun₂ htail fun p hp => helects p (List.mem_cons_of_mem _ hp)
      have he := helects (k, s) List.mem_cons_self
      exact .cons (decides_match hq hQ hD₁ hD₂ he he hdec₁ hdec₂ hrun₁.commit_mem
        hrun₂.commit_mem hal.map) hal

end TwoViews

theorem filter_drop_of_take {α : Type} {l : List α} {p : α → Bool} {n : Nat}
    (h : ∀ x ∈ l.take n, p x = false) : (l.drop n).filter p = l.filter p := by
  have htake : (l.take n).filter p = [] := List.filter_eq_nil_iff.2 fun x hx => by simp [h x hx]
  calc (l.drop n).filter p = (l.take n).filter p ++ (l.drop n).filter p := by
        rw [htake, List.nil_append]
    _ = l.filter p := by rw [← List.filter_append, List.take_append_drop]

/-- One slot decided twice in one view from deques with the same anchors gets one
status: the direct rule and the anchors read the committer only through its
committee and the slot's decision round. -/
theorem decides_eq {c : Committee} {k k' : BaseCommitter} {s : Slot} (he : Elects c k s)
    (he' : Elects c k' s) {P P' : List LeaderStatus} {st st' : LeaderStatus} {d d' : Decision}
    (h : Decides v k s P st d) (h' : Decides v k' s P' st' d')
    (hP : P.filter (fun x => s.round + 3 ≤ x.round) = P'.filter (fun x => s.round + 3 ≤ x.round)) :
    st = st' := by
  have hc : k.committee = k'.committee := he.1.trans he'.1.symm
  have hd := he.decisionRound.trans he'.decisionRound.symm
  have hdir := BaseCommitter.tryDirectDecide_congr v s hc hd
  rcases h with ⟨h₁, hd₁, -⟩ | ⟨st₀, h₁, hd₁, hi₁, -⟩ <;>
    rcases h' with ⟨h₂, hd₂, -⟩ | ⟨st₀', h₂, hd₂, hi₂, -⟩
  · rw [hdir, h₂] at h₁
    exact (Except.ok.inj h₁).symm
  · rw [hdir, h₂] at h₁
    cases h₁
    rw [hd₁] at hd₂
    cases hd₂
  · rw [hdir, h₂] at h₁
    cases h₁
    rw [hd₁] at hd₂
    cases hd₂
  · rw [k.tryIndirectDecide_of_waveLength v s he.2.1, hP] at hi₁
    rw [k'.tryIndirectDecide_of_waveLength v s he'.2.1] at hi₂
    have := BaseCommitter.decideFromAnchors_congr v s hc hd hi₁
    rw [hi₂] at this
    exact (Except.ok.inj this).symm

theorem Run.slot_getElem {ps : List (BaseCommitter × Slot)} {L : List (LeaderStatus × Decision)}
    (hrun : Run v ps L) {i : Nat} (hi : i < L.length) (hi' : i < ps.length) :
    L[i].1.slot = ps[i].2 := by
  have h := congrArg (fun l => l[i]?) hrun.slots
  simp only [List.getElem?_map, List.getElem?_eq_getElem hi,
    List.getElem?_eq_getElem hi', Option.map_some, Option.some.injEq] at h
  exact h

/-- In a run whose slots go up, the entries up to a position are no higher than it. -/
theorem Run.round_le_of_mem_take {ps : List (BaseCommitter × Slot)}
    {L : List (LeaderStatus × Decision)} (hrun : Run v ps L)
    (hsorted : ps.Pairwise (fun p q => p.2.round ≤ q.2.round)) {i : Nat} (hi : i < L.length)
    {x : LeaderStatus} (hx : x ∈ (L.map Prod.fst).take (i + 1)) :
    x.round ≤ L[i].1.round := by
  have hi' : i < ps.length := hrun.length_eq ▸ hi
  have hslot : x.slot ∈ (ps.take (i + 1)).map Prod.snd := by
    rw [List.map_take, ← hrun.slots, ← List.map_take]
    exact List.mem_map_of_mem hx
  obtain ⟨p, hp, hpx⟩ := List.mem_map.1 hslot
  have htake : (ps.take i ++ [ps[i]]).Pairwise (fun p q => p.2.round ≤ q.2.round) := by
    rw [← List.take_succ_eq_append_getElem hi']
    exact hsorted.sublist (List.take_sublist _ _)
  rw [List.take_succ_eq_append_getElem hi'] at hp
  have hle : p.2.round ≤ ps[i].2.round := by
    rcases List.mem_append.1 hp with hp | hp
    · exact (List.pairwise_append.1 htake).2.2 p hp ps[i] List.mem_cons_self
    · rw [List.mem_singleton.1 hp]
  rw [LeaderStatus.round_eq, LeaderStatus.round_eq, ← hpx, hrun.slot_getElem hi hi']
  exact hle

/-- Within one run a slot visited twice gets one status: both are decided from the
anchors of the whole run, the entries below them being too low to count. -/
theorem run_status_eq_of_slot {c : Committee} {ps : List (BaseCommitter × Slot)}
    {L : List (LeaderStatus × Decision)} (hrun : Run v ps L)
    (hsorted : ps.Pairwise (fun p q => p.2.round ≤ q.2.round))
    (helects : ∀ p ∈ ps, Elects c p.1 p.2) {i j : Nat} (hi : i < L.length) (hj : j < L.length)
    (hslot : L[i].1.slot = L[j].1.slot) : L[i].1 = L[j].1 := by
  obtain ⟨hi', hdec_i⟩ := hrun.decides_getElem hi
  obtain ⟨hj', hdec_j⟩ := hrun.decides_getElem hj
  have hsi := hrun.slot_getElem hi hi'
  have hps : ps[j].2 = ps[i].2 := (hrun.slot_getElem hj hj').symm.trans (hslot.symm.trans hsi)
  -- the anchors of either entry are those of the whole run
  have hanchors : ∀ t (ht : t < L.length),
      ((L.drop (t + 1)).map Prod.fst).filter (fun x => L[t].1.slot.round + 3 ≤ x.round) =
        (L.map Prod.fst).filter (fun x => L[t].1.slot.round + 3 ≤ x.round) := by
    intro t ht
    rw [List.map_drop]
    apply filter_drop_of_take
    intro x hx
    have := hrun.round_le_of_mem_take hsorted ht hx
    simp only [LeaderStatus.round_eq] at this
    simp only [LeaderStatus.round_eq, decide_eq_false_iff_not, not_le]
    omega
  have h₁ := hanchors i hi
  have h₂ := hanchors j hj
  rw [← hslot] at h₂
  have hfilter := h₁.trans h₂.symm
  rw [hsi] at hfilter
  rw [hps] at hdec_j
  exact decides_eq (helects _ (List.getElem_mem hi'))
    (hps ▸ helects _ (List.getElem_mem hj')) hdec_i hdec_j hfilter

/-- Two entries of aligned runs for one slot match, wherever they stand: the entry
of the longer run at the other's position is the same status. -/
theorem matches_of_slot_eq {c : Committee} {D₁ D₂ : DagView} {ps₁ ps₂ : List (BaseCommitter × Slot)}
    {L₁ L₂ : List (LeaderStatus × Decision)} (hrun₁ : Run D₁ ps₁ L₁) (hrun₂ : Run D₂ ps₂ L₂)
    (hs₁ : ps₁.Pairwise (fun p q => p.2.round ≤ q.2.round))
    (hs₂ : ps₂.Pairwise (fun p q => p.2.round ≤ q.2.round))
    (he₁ : ∀ p ∈ ps₁, Elects c p.1 p.2) (he₂ : ∀ p ∈ ps₂, Elects c p.1 p.2)
    (hal : Aligned (fun e₁ e₂ => e₁.1.Matches e₂.1) L₁ L₂) {i j : Nat} (hi : i < L₁.length)
    (hj : j < L₂.length) (hslot : L₁[i].1.slot = L₂[j].1.slot) : L₁[i].1.Matches L₂[j].1 := by
  by_cases hi₂ : i < L₂.length
  · have hm := hal.getElem hi hi₂
    rw [← run_status_eq_of_slot hrun₂ hs₂ he₂ hi₂ hj (hm.1.symm.trans hslot)]
    exact hm
  · have hj₁ : j < L₁.length := by omega
    have hm := hal.getElem hj₁ hj
    rw [← run_status_eq_of_slot hrun₁ hs₁ he₁ hj₁ hi (hm.1.trans hslot.symm)]
    exact hm

/-- A leader of the decided prefix is the status of a decided entry of the deque. -/
theorem mem_decidedPrefix {L : List (LeaderStatus × Decision)} {x : DecidedLeader}
    (h : x ∈ decidedPrefix L) :
    ∃ i, ∃ hi : i < L.length, L[i].1.isDecided = true ∧ x.status = L[i].1 := by
  induction L with
  | nil => simp [decidedPrefix] at h
  | cons e rest ih =>
    have shift : (∃ i, ∃ hi : i < rest.length, rest[i].1.isDecided = true ∧ x.status = rest[i].1) →
        ∃ i, ∃ hi : i < (e :: rest).length,
          (e :: rest)[i].1.isDecided = true ∧ x.status = (e :: rest)[i].1 :=
      fun ⟨i, hi, hd, hx⟩ => ⟨i + 1, by simpa using hi, hd, hx⟩
    obtain ⟨st, d⟩ := e
    unfold decidedPrefix at h
    split at h
    · exact shift (ih h)
    split at h
    · cases h
    rename_i x₀ hx₀
    rcases List.mem_cons.1 h with rfl | h
    · obtain ⟨hd, hs⟩ := LeaderStatus.intoDecidedLeader_spec hx₀
      exact ⟨0, by simp, hd, hs⟩
    · exact shift (ih h)

/-- Aligned deques have decided prefixes one of which extends the other: the
prefixes run on together while both entries are decided, and then one ends. -/
theorem decidedPrefix_comparable {L₁ L₂ : List (LeaderStatus × Decision)}
    (hal : Aligned (fun e₁ e₂ => e₁.1.Matches e₂.1) L₁ L₂) :
    (decidedPrefix L₁).map DecidedLeader.status <+: (decidedPrefix L₂).map DecidedLeader.status ∨
      (decidedPrefix L₂).map DecidedLeader.status <+: (decidedPrefix L₁).map DecidedLeader.status := by
  induction hal with
  | nil_left => exact .inl (by simp [decidedPrefix])
  | nil_right => exact .inr (by simp [decidedPrefix])
  | @cons e₁ e₂ L₁ L₂ hm _ ih =>
    obtain ⟨st₁, d₁⟩ := e₁
    obtain ⟨st₂, d₂⟩ := e₂
    have hround : st₁.round = st₂.round := by
      rw [LeaderStatus.round_eq, LeaderStatus.round_eq, hm.1]
    unfold decidedPrefix
    rw [hround]
    split
    · exact ih
    cases h₁ : st₁.intoDecidedLeader (d₁ = .direct) with
    | none => exact .inl (by simp)
    | some x₁ =>
      cases h₂ : st₂.intoDecidedLeader (d₂ = .direct) with
      | none => exact .inr (by simp)
      | some x₂ =>
        obtain ⟨hd₁, hx₁⟩ := LeaderStatus.intoDecidedLeader_spec h₁
        obtain ⟨hd₂, hx₂⟩ := LeaderStatus.intoDecidedLeader_spec h₂
        have hx : x₁.status = x₂.status := by
          rw [hx₁, hx₂]
          exact LeaderStatus.eq_of_matches hm hd₁ hd₂
        simp only [List.map_cons, hx, List.cons_prefix_cons, true_and]
        exact ih

theorem elects_of_mem_slotsToDecide {c : Committee} {u : UniversalCommitter}
    (hu : ∀ k ∈ u.committers, k.committee = c ∧ k.options.waveLength = 3)
    {p : BaseCommitter × Slot} (hp : p ∈ (slotsToDecide v lastDecided u).reverse) :
    Elects c p.1 p.2 := by
  obtain ⟨hk, round, -, hel⟩ := mem_runSlots (List.mem_reverse.1 hp)
  obtain ⟨hc, hw⟩ := hu p.1 (List.mem_reverse.1 hk)
  exact ⟨hc, hw, round, hel⟩

/-- Commit agreement of the universal committer with wave length 3, on a committee
built by `Committee::new` whose equivocators hold at most `f` of the stake: over any
two views of one DAG, from one last decided slot, neither run panics, the decided
leaders of a slot both decide are one status, and one decided sequence extends the
other. -/
theorem tryDecide_agreement {epoch : Nat} {authorities : List Authority} {c : Committee}
    (hc : Committee.new epoch authorities = some c)
    (hfit : (authorities.map (fun a => a.stake.toNat)).sum < 2 ^ 64) (G : BlockDag c)
    (hequiv : c.stakeOf G.equivocators ≤ (c.totalStake.toNat - 1) / 3) (u : UniversalCommitter)
    (hu : ∀ k ∈ u.committers, k.committee = c ∧ k.options.waveLength = 3)
    {D₁ D₂ : DagView} (hD₁ : G.IsView D₁) (hD₂ : G.IsView D₂) (lastDecided : Slot) :
    ∃ out₁ out₂, u.tryDecide D₁ lastDecided = .ok out₁ ∧ u.tryDecide D₂ lastDecided = .ok out₂ ∧
      (∀ x ∈ out₁, ∀ y ∈ out₂, x.slot = y.slot → x.status = y.status) ∧
      (out₁.map DecidedLeader.status <+: out₂.map DecidedLeader.status ∨
        out₂.map DecidedLeader.status <+: out₁.map DecidedLeader.status) := by
  have hq := G.quorumsMeet_of_new hc hfit (by rw [validityThreshold_of_new hc]; omega)
  have hQ := quorumThreshold_pos_of_new hc
  have hok : ∀ {D : DagView}, G.IsView D → ∀ k ∈ u.committers, ∀ round slot,
      k.electLeader round = some slot → CanDecide D k slot :=
    fun hD k hk round slot hel => canDecide_of_elects hq hQ hD ⟨(hu k hk).1, (hu k hk).2, round, hel⟩
  obtain ⟨L₁, hL₁, hrun₁⟩ := tryDecide_run lastDecided (hok hD₁)
  obtain ⟨L₂, hL₂, hrun₂⟩ := tryDecide_run lastDecided (hok hD₂)
  have helects : ∀ {D : DagView} (p : BaseCommitter × Slot),
      p ∈ (slotsToDecide D lastDecided u).reverse → Elects c p.1 p.2 :=
    fun _ hp => elects_of_mem_slotsToDecide hu hp
  have hal := run_aligned hq hQ hD₁ hD₂ hrun₁ hrun₂ (slotsToDecide_comparable u D₁ D₂) helects
  refine ⟨_, _, hL₁, hL₂, fun x hx y hy hxy => ?_, decidedPrefix_comparable hal⟩
  obtain ⟨i, hi, hdi, hxi⟩ := mem_decidedPrefix hx
  obtain ⟨j, hj, hdj, hyj⟩ := mem_decidedPrefix hy
  have hslot : L₁[i].1.slot = L₂[j].1.slot := by
    rw [← hxi, ← hyj, DecidedLeader.slot_status, DecidedLeader.slot_status, hxy]
  rw [hxi, hyj]
  exact LeaderStatus.eq_of_matches (matches_of_slot_eq hrun₁ hrun₂ (slotsToDecide_sorted u)
    (slotsToDecide_sorted u) helects helects hal hi hj hslot) hdi hdj

/-! ### Two views of one DAG

Four authorities of stake 1, and a DAG up to round 4 in which authority 3's blocks
of rounds 2 and 3 reach only the second view. The leader of round 1 is authority 0;
only one block of round 2, authority 0's own, links to it. -/

namespace ForkingViews

def block (round author : Nat) (ancestors : List BlockRef) : Block :=
  ⟨0, round, author, 0, 0, ancestors⟩

def ref (round author : Nat) : BlockRef := ⟨round, author, 0⟩

def authorities : List Authority := [⟨1⟩, ⟨1⟩, ⟨1⟩, ⟨1⟩]

def committee : Committee := ⟨0, 4, 3, 2, authorities⟩

theorem new_authorities : Committee.new 0 authorities = some committee := by decide

def genesis : List Block := [block 0 0 [], block 0 1 [], block 0 2 [], block 0 3 []]

def leader : Block := block 1 0 [ref 0 0, ref 0 1, ref 0 2, ref 0 3]

def round1 : List Block :=
  [leader, block 1 1 [ref 0 1, ref 0 0, ref 0 2, ref 0 3],
    block 1 2 [ref 0 2, ref 0 0, ref 0 1, ref 0 3], block 1 3 [ref 0 3, ref 0 0, ref 0 1, ref 0 2]]

/-- Rounds 2 to 4 seen by the first view: authority 0's block of round 2 links the
leader, every block of round 3 links it, and round 4 certifies the leader. -/
def upper : List Block :=
  [block 2 0 [ref 1 0, ref 1 1, ref 1 2], block 2 1 [ref 1 1, ref 1 2, ref 1 3],
    block 2 2 [ref 1 2, ref 1 1, ref 1 3],
    block 3 0 [ref 2 0, ref 2 1, ref 2 2], block 3 1 [ref 2 1, ref 2 0, ref 2 2],
    block 3 2 [ref 2 2, ref 2 0, ref 2 1],
    block 4 0 [ref 3 0, ref 3 1, ref 3 2], block 4 1 [ref 3 1, ref 3 0, ref 3 2],
    block 4 2 [ref 3 2, ref 3 0, ref 3 1]]

/-- Authority 3's blocks of rounds 2 and 3; its round-2 block does not link the
leader either. -/
def late : List Block :=
  [block 2 3 [ref 1 3, ref 1 1, ref 1 2], block 3 3 [ref 2 3, ref 2 0, ref 2 1]]

def dag : BlockDag committee where
  genesis := genesis
  blocks := round1 ++ upper ++ late
  genesis_spec := by decide
  accepted := by decide
  closed := by decide
  references_nodup := by decide

theorem equivocators_stake :
    committee.stakeOf dag.equivocators ≤ (committee.totalStake.toNat - 1) / 3 := by
  decide

def firstView : DagView := ⟨genesis, round1 ++ upper⟩

/-- The second view holds rounds 1 and 2 and authority 3's block of round 3. -/
def secondView : DagView := ⟨genesis, round1 ++ upper.take 3 ++ late⟩

theorem isView_firstView : dag.IsView firstView where
  genesis_eq := rfl
  subset := by decide
  nodup := by decide
  closed := by decide

theorem isView_secondView : dag.IsView secondView where
  genesis_eq := rfl
  subset := by decide
  nodup := by decide
  closed := by decide

/-- The committers of the builder with pipelining and one leader per round. -/
def committer (waveLength : Nat) : UniversalCommitter :=
  UniversalCommitterBuilder.build committee (fun _ _ => 0) (some 1) waveLength 1 true

end ForkingViews

open ForkingViews in
theorem tryDecide_agreement_forkingViews :
    ∃ out₁ out₂, (committer 3).tryDecide firstView ⟨0, 0⟩ = .ok out₁ ∧
      (committer 3).tryDecide secondView ⟨0, 0⟩ = .ok out₂ ∧
      (∀ x ∈ out₁, ∀ y ∈ out₂, x.slot = y.slot → x.status = y.status) ∧
      (out₁.map DecidedLeader.status <+: out₂.map DecidedLeader.status ∨
        out₂.map DecidedLeader.status <+: out₁.map DecidedLeader.status) :=
  tryDecide_agreement new_authorities (by decide) dag equivocators_stake (committer 3)
    (by decide) isView_firstView isView_secondView ⟨0, 0⟩

/-- With wave length 4 the two views decide the leader of round 1 differently: the
first commits it through certificates of round 4 whose votes of round 3 reach it
through authority 0's block, while in the second the three blocks of round 2 that
do not link it blame it. -/
theorem tryDecide_disagrees_wave_length_four :
    Committee.new 0 ForkingViews.authorities = some ForkingViews.committee ∧
      ForkingViews.committee.stakeOf ForkingViews.dag.equivocators ≤
        (ForkingViews.committee.totalStake.toNat - 1) / 3 ∧
      ForkingViews.dag.IsView ForkingViews.firstView ∧
      ForkingViews.dag.IsView ForkingViews.secondView ∧
      (∀ k ∈ (ForkingViews.committer 4).committers, k.committee = ForkingViews.committee) ∧
      (ForkingViews.committer 4).tryDecide ForkingViews.firstView ⟨0, 0⟩ =
        .ok [.commit ForkingViews.leader true] ∧
      (ForkingViews.committer 4).tryDecide ForkingViews.secondView ⟨0, 0⟩ =
        .ok [.skip ⟨1, 0⟩] :=
  ⟨ForkingViews.new_authorities, ForkingViews.equivocators_stake, ForkingViews.isView_firstView,
    ForkingViews.isView_secondView, by decide, by decide, by decide⟩

end UniversalCommitter

end Rtd
