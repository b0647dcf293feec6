import Rtd.BlockDag
import Rtd.BaseCommitter

/-!
What the checks of the commit rule (`base_committer.rs`) establish about a block
DAG when the leader's decision round is two rounds above it, as with the wave
length of 3 the code builds: a vote is a block of the voting round with the leader
block among its ancestors, a certificate carries a quorum of votes, a blame quorum
excludes every certificate, two certified leader blocks of one slot are one block,
and a leader with a quorum of certificates has a certificate in the history of
every block two rounds further up.

The checks read only ancestors of blocks of the view, so a view answers them as
the whole DAG does.
-/

set_option autoImplicit false

namespace Rtd

theorem findSome_congr {α β : Type} {f g : α → Option β} {l : List α}
    (h : ∀ x ∈ l, f x = g x) : l.findSome? f = l.findSome? g := by
  induction l with
  | nil => rfl
  | cons x rest ih =>
    simp only [List.findSome?_cons, h x List.mem_cons_self,
      ih fun y hy => h y (List.mem_cons_of_mem _ hy)]

theorem length_le_one_of_eq {α : Type} {l : List α} (hnodup : l.Nodup)
    (heq : ∀ x ∈ l, ∀ y ∈ l, x = y) : l.length ≤ 1 := by
  match l, hnodup, heq with
  | [], _, _ => simp
  | [_], _, _ => simp
  | x :: y :: rest, hnodup, heq =>
    have hxy : x = y := heq x List.mem_cons_self y (List.mem_cons_of_mem _ List.mem_cons_self)
    exact absurd (hxy ▸ List.mem_cons_self) (List.nodup_cons.1 hnodup).1

/-! ### The aggregation loop -/

section QuorumLoop

variable {α : Type} (c : Committee) {counts counts' : α → Bool} (authority : α → Nat)

theorem quorumLoop_congr {agg : StakeAggregator} {l : List α}
    (h : ∀ x ∈ l, counts x = counts' x) :
    quorumLoop c counts authority agg l = quorumLoop c counts' authority agg l := by
  induction l generalizing agg with
  | nil => rfl
  | cons x rest ih =>
    have hrest : ∀ agg', quorumLoop c counts authority agg' rest =
        quorumLoop c counts' authority agg' rest :=
      fun _ => ih fun y hy => h y (List.mem_cons_of_mem _ hy)
    simp only [quorumLoop, h x List.mem_cons_self, hrest]

/-- A loop that answers `true` has counted a quorum of the elements that count. -/
theorem quorumLoop_reached {agg : StakeAggregator} {l : List α} (hagg : agg.Counts c)
    (h : quorumLoop c counts authority agg l = true) :
    c.reachedQuorum
      (c.stakeOf (agg.votes ∪ ((l.filter counts).map authority).toFinset)) = true := by
  induction l generalizing agg with
  | nil => simp [quorumLoop] at h
  | cons x rest ih =>
    unfold quorumLoop at h
    split at h
    · rename_i hx
      have hcounts := StakeAggregator.counts_insertVote hagg (authority x)
      -- the votes after `x`, and those after the rest, lie within the final set
      have hsub : (agg.insertVote (authority x) c).votes ∪
          ((rest.filter counts).map authority).toFinset ⊆
          agg.votes ∪ (((x :: rest).filter counts).map authority).toFinset := by
        intro y hy
        simp only [StakeAggregator.insertVote_votes, Finset.mem_union, Finset.mem_insert,
          List.mem_toFinset, List.filter_cons, hx, if_true, List.map_cons,
          List.mem_cons] at hy ⊢
        tauto
      simp only [StakeAggregator.add, Threshold.isThreshold, Bool.or_eq_true] at h
      rcases h with h | h
      · rw [hcounts] at h
        exact c.reachedQuorum_mono h (c.stakeOf_mono (Finset.subset_union_left.trans hsub))
      · exact c.reachedQuorum_mono (ih hcounts h) (c.stakeOf_mono hsub)
    · rename_i hx
      simpa [List.filter_cons, hx] using ih hagg h

/-- A loop from an empty aggregator that answers `true` has found a quorum of the
authorities of counted elements, each of which has a block with property `P`. -/
theorem quorumLoop_witnessed {G : BlockDag c} {P : Block → Prop} {l : List α}
    (h : quorumLoop c counts authority .new l = true)
    (hwit : ∀ x ∈ l, counts x = true → authority x < c.size ∧
      ∃ b ∈ G.blocks, b.author = authority x ∧ P b) :
    ∃ S, c.IsQuorum S ∧ G.Witnessed P S := by
  refine ⟨((l.filter counts).map authority).toFinset, ⟨fun H hH => ?_, ?_⟩, fun H hH => ?_⟩
  · obtain ⟨x, hx, rfl⟩ := List.mem_map.1 (List.mem_toFinset.1 hH)
    obtain ⟨hxl, hxc⟩ := List.mem_filter.1 hx
    exact Finset.mem_range.2 (hwit x hxl hxc).1
  · simpa [StakeAggregator.new] using
      quorumLoop_reached c authority (StakeAggregator.counts_new c) h
  · obtain ⟨x, hx, rfl⟩ := List.mem_map.1 (List.mem_toFinset.1 hH)
    obtain ⟨hxl, hxc⟩ := List.mem_filter.1 hx
    exact (hwit x hxl hxc).2

end QuorumLoop

namespace BaseCommitter

/-! ### Votes at the round above the leader -/

section Votes

variable {v : DagView} {s : Slot}

/-- Searching a block at most one round above the slot finds an ancestor in the slot,
and only when the block is one round above. -/
theorem findSupportedBlockFuel_of_round_le {fuel : Nat} {V : Block} {ref : BlockRef}
    (hanc : ∀ a ∈ V.ancestors, a.round < V.round) (hV : V.round ≤ s.round + 1)
    (h : findSupportedBlockFuel v s fuel V = some ref) :
    ref ∈ V.ancestors ∧ Slot.ofRef ref = s ∧ V.round = s.round + 1 := by
  cases fuel with
  | zero => simp [findSupportedBlockFuel] at h
  | succ fuel =>
    unfold findSupportedBlockFuel at h
    split at h
    · cases h
    obtain ⟨a, ha, hfa⟩ := List.exists_of_findSome?_eq_some h
    have halt := hanc a ha
    split at hfa
    · rename_i hslot
      cases hfa
      have hround : ref.round = s.round := by rw [← hslot]; rfl
      exact ⟨ha, hslot, by omega⟩
    · split at hfa
      · cases hfa
      · omega

theorem isVote_of_round_le {V B : Block} (hanc : ∀ a ∈ V.ancestors, a.round < V.round)
    (hV : V.round ≤ B.round + 1) (h : isVote v V B = true) :
    B.reference ∈ V.ancestors ∧ V.round = B.round + 1 := by
  have hfind : findSupportedBlockFuel v B.slot (V.round + 1) V = some B.reference := by
    simpa [isVote, findSupportedBlock] using h
  obtain ⟨hmem, -, hround⟩ := findSupportedBlockFuel_of_round_le hanc hV hfind
  exact ⟨hmem, hround⟩

/-- A block supports at most one block of a slot. -/
theorem reference_eq_of_isVote {V B B' : Block} (hslot : B.slot = B'.slot)
    (h : isVote v V B = true) (h' : isVote v V B' = true) : B.reference = B'.reference := by
  simp only [isVote, beq_iff_eq, hslot] at h h'
  exact Option.some.inj (h.symm.trans h')

end Votes

/-! ### A view answers the checks as the whole DAG does -/

section View

variable {c : Committee} {G : BlockDag c} {D : DagView} (hD : G.IsView D)
include hD

theorem findSupportedBlockFuel_view (s : Slot) :
    ∀ (fuel : Nat) {V : Block}, D.Mem V →
      findSupportedBlockFuel D s fuel V = findSupportedBlockFuel G.view s fuel V
  | 0, _, _ => rfl
  | fuel + 1, V, hV => by
    unfold findSupportedBlockFuel
    split
    · rfl
    · apply findSome_congr
      intro a ha
      split
      · rfl
      split
      · rfl
      rcases hV with hV | hV
      · obtain ⟨b, hb⟩ := hD.getBlock_ancestor hV ha
        rw [hb, hD.getBlock_dag hb]
        exact findSupportedBlockFuel_view s fuel (DagView.getBlock_spec hb).2.2
      · simp [hD.wellFormed.genesis_ancestors V hV] at ha

theorem isVote_view {V : Block} (hV : D.Mem V) (B : Block) :
    isVote D V B = isVote G.view V B := by
  unfold isVote findSupportedBlock
  rw [findSupportedBlockFuel_view hD _ _ hV]

theorem referenceIsVote_view {C : Block} (hC : C ∈ D.blocks) {a : BlockRef}
    (ha : a ∈ C.ancestors) (B : Block) : referenceIsVote D B a = referenceIsVote G.view B a := by
  obtain ⟨V, hV⟩ := hD.getBlock_ancestor hC ha
  unfold referenceIsVote
  rw [hV, hD.getBlock_dag hV]
  exact isVote_view hD (DagView.getBlock_spec hV).2.2 B

theorem isCertificate_view (self : BaseCommitter) {C : Block} (hC : C ∈ D.blocks)
    (B : Block) : self.isCertificate D C B = self.isCertificate G.view C B :=
  quorumLoop_congr _ _ fun _ ha => referenceIsVote_view hD hC ha B

theorem reaches_view {A : Block} (hA : D.Mem A) {y : BlockRef} :
    D.Reaches A y ↔ G.view.Reaches A y := by
  constructor
  · intro h
    clear hA
    induction h with
    | ancestor ha => exact .ancestor ha
    | step ha hget _ ih => exact .step ha (hD.getBlock_dag hget) ih
  · intro h
    -- the path stays in the view: each step is an ancestor of a block of the view
    induction h with
    | ancestor ha => exact .ancestor ha
    | step ha hget _ ih =>
      rcases hA with hA | hA
      · rw [← hD.getBlock_ancestor_eq hA ha] at hget
        exact .step ha hget (ih (DagView.getBlock_spec hget).2.2)
      · simp [hD.wellFormed.genesis_ancestors _ hA] at ha

end View

/-! ### What the checks establish -/

section Evidence

variable {c : Committee} {G : BlockDag c} (self : BaseCommitter) (hself : self.committee = c)
include hself

/-- A certificate two rounds above a leader block carries a quorum of votes: blocks
of the voting round, among the certificate's ancestors, that have the leader block
as ancestor. -/
theorem isCertificate_votes {C B : Block} (hC : C ∈ G.blocks) (hCr : C.round = B.round + 2)
    (h : self.isCertificate G.view C B = true) :
    ∃ S, c.IsQuorum S ∧ G.Witnessed (fun V => V.reference ∈ C.ancestors ∧
      isVote G.view V B = true ∧ V.round = B.round + 1 ∧ B.reference ∈ V.ancestors) S := by
  rw [isCertificate, hself] at h
  have hver := BlockDag.verified hC
  refine quorumLoop_witnessed c BlockRef.author h fun a ha hvote => ⟨hver.ancestor_author_valid a ha, ?_⟩
  unfold referenceIsVote at hvote
  split at hvote
  · rename_i V hV
    obtain ⟨href, -, hmem⟩ := DagView.getBlock_spec hV
    have hVr : V.round < C.round := by
      have := hver.ancestor_round_lt a ha
      rw [← href] at this
      exact this
    have hanc : ∀ x ∈ V.ancestors, x.round < V.round := fun x hx =>
      DagView.ancestor_round_lt_of_mem BlockDag.isView_view.wellFormed hmem hx
    obtain ⟨hBV, hround⟩ := isVote_of_round_le hanc (by omega) hvote
    have hVG : V ∈ G.blocks := by
      rcases hmem with hmem | hmem
      · exact hmem
      · have := (G.genesis_spec V hmem).1
        simp [genesisRound] at this
        omega
    exact ⟨V, hVG, by rw [← href]; rfl, href ▸ ha, hvote, hround, hBV⟩
  · cases hvote

/-- A blame quorum: blocks of the voting round with no ancestor by the leader. -/
theorem enoughLeaderBlame_blames {D : DagView} (hD : G.IsView D) {round leader : Nat}
    (h : self.enoughLeaderBlame D round leader = true) :
    ∃ S, c.IsQuorum S ∧
      G.Witnessed (fun X => X.round = round ∧ ∀ x ∈ X.ancestors, x.author ≠ leader) S := by
  rw [enoughLeaderBlame, hself] at h
  refine quorumLoop_witnessed c _ h fun X hX hblame => ?_
  obtain ⟨hXD, hXr⟩ := List.mem_filter.1 hX
  have hXG := hD.subset X hXD
  simp only [List.all_eq_true, decide_eq_true_eq] at hblame
  exact ⟨(BlockDag.verified hXG).author_valid, X, hXG, rfl, by simpa using hXr, hblame⟩

/-- A support quorum: blocks of the decision round that are certificates. -/
theorem enoughLeaderSupport_certificates {D : DagView} (hD : G.IsView D) {round : Nat}
    {B : Block} (h : self.enoughLeaderSupport D round B = true) :
    ∃ S, c.IsQuorum S ∧ G.Witnessed (fun C => C ∈ D.blocks ∧ C.round = round ∧
      self.isCertificate D C B = true) S := by
  unfold enoughLeaderSupport at h
  dsimp only at h
  split at h
  · cases h
  rw [hself] at h
  refine quorumLoop_witnessed c _ h fun C hC hcert => ?_
  obtain ⟨hCD, hCr⟩ := List.mem_filter.1 hC
  have hCG := hD.subset C hCD
  exact ⟨(BlockDag.verified hCG).author_valid, C, hCG, rfl, hCD, by simpa using hCr, hcert⟩

end Evidence

section Safety

variable {c : Committee} {G : BlockDag c} (self : BaseCommitter) (hself : self.committee = c)
include hself

/-- Two certified blocks of one slot are one block: their vote quorums share an
honest voter, whose one vote supports one block of the slot. -/
theorem certified_eq (hq : G.QuorumsMeet) {C C' B B' : Block} (hC : C ∈ G.blocks) (hC' : C' ∈ G.blocks)
    (hB : B ∈ G.blocks) (hB' : B' ∈ G.blocks) (hslot : B.slot = B'.slot)
    (hCr : C.round = B.round + 2) (hC'r : C'.round = B'.round + 2)
    (h : self.isCertificate G.view C B = true) (h' : self.isCertificate G.view C' B' = true) :
    B = B' := by
  have hround : B'.round = B.round := by
    have := congrArg Slot.round hslot
    exact this.symm
  obtain ⟨S, hS, hw⟩ := isCertificate_votes self hself hC hCr h
  obtain ⟨S', hS', hw'⟩ := isCertificate_votes self hself hC' hC'r h'
  obtain ⟨V, -, ⟨-, hvote, -⟩, ⟨-, hvote', -⟩⟩ :=
    G.exists_common_block hq hS hS' hw hw' (fun _ hb => hb.2.2.1)
      (fun _ hb => hb.2.2.1.trans (by rw [hround]))
  exact BlockDag.eq_of_reference_eq (List.mem_append_right _ hB) (List.mem_append_right _ hB')
    (reference_eq_of_isVote hslot hvote hvote')

/-- A blame quorum for a slot leaves no certificate for any of its blocks: an honest
authority's one voting-round block cannot both blame and vote. -/
theorem not_certified_of_blame (hq : G.QuorumsMeet) {D : DagView} (hD : G.IsView D) {C B : Block}
    (hC : C ∈ G.blocks) (hCr : C.round = B.round + 2)
    (hblame : self.enoughLeaderBlame D (B.round + 1) B.author = true) :
    self.isCertificate G.view C B = false := by
  by_contra hcert
  rw [Bool.not_eq_false] at hcert
  obtain ⟨S, hS, hw⟩ := enoughLeaderBlame_blames self hself hD hblame
  obtain ⟨S', hS', hw'⟩ := isCertificate_votes self hself hC hCr hcert
  obtain ⟨X, -, ⟨-, hnone⟩, ⟨-, -, -, hBX⟩⟩ :=
    G.exists_common_block hq hS hS' hw hw' (fun _ hb => hb.1) (fun _ hb => hb.2.2.1)
  exact hnone _ hBX rfl

omit hself in
/-- Every block of a view reaches a quorum of blocks of each lower round above
genesis: its parents are a quorum, and one of them reaches the rest. -/
theorem history_witnessed (hQ : 0 < c.quorumThreshold.toNat) {D : DagView} (hD : G.IsView D)
    (k : Nat) (hk : 0 < k) :
    ∀ (n : Nat) {A : Block}, A ∈ D.blocks → A.round = k + 1 + n →
      ∃ S, c.IsQuorum S ∧
        G.Witnessed (fun Y => Y ∈ D.blocks ∧ Y.round = k ∧ D.Reaches A Y.reference) S := by
  intro n
  induction n with
  | zero =>
    intro A hA hAr
    obtain ⟨S, hS, hw⟩ := BlockDag.parents_witnessed (hD.subset A hA) (by omega)
    refine ⟨S, hS, fun H hH => ?_⟩
    obtain ⟨P, hPG, hPH, hPA, hPr⟩ := hw H hH
    exact ⟨P, hPG, hPH, (hD.mem_of_ancestor hA hPG hPA).1, by omega, .ancestor hPA⟩
  | succ n ih =>
    intro A hA hAr
    obtain ⟨S, hS, hw⟩ := BlockDag.parents_witnessed (hD.subset A hA) (by omega)
    obtain ⟨H, hH⟩ := c.nonempty_of_reachedQuorum hQ hS.2
    obtain ⟨P, hPG, -, hPA, hPr⟩ := hw H hH
    obtain ⟨hPD, hget⟩ := hD.mem_of_ancestor hA hPG hPA
    obtain ⟨S', hS', hw'⟩ := ih hPD (by omega)
    refine ⟨S', hS', fun H' hH' => ?_⟩
    obtain ⟨Y, hYG, hYH, hYD, hYr, hreach⟩ := hw' H' hH'
    exact ⟨Y, hYG, hYH, hYD, hYr, .step hPA hget hreach⟩

/-- A supported leader block has a certificate in the history of every block of any
view at least three rounds above it. -/
theorem certificate_reachable (hq : G.QuorumsMeet) (hQ : 0 < c.quorumThreshold.toNat)
    {D D' : DagView} (hD : G.IsView D) (hD' : G.IsView D')
    {A B : Block} (hsupport : self.enoughLeaderSupport D (B.round + 2) B = true)
    (hA : A ∈ D'.blocks) (hAr : B.round + 2 < A.round) :
    ∃ C ∈ D'.blocks, C.round = B.round + 2 ∧ D'.Reaches A C.reference ∧
      self.isCertificate D' C B = true := by
  obtain ⟨S, hS, hw⟩ := enoughLeaderSupport_certificates self hself hD hsupport
  obtain ⟨S', hS', hw'⟩ := history_witnessed hQ hD' (B.round + 2) (by omega)
    (A.round - (B.round + 3)) hA (by omega)
  obtain ⟨C, -, ⟨hCD, hCr, hcert⟩, ⟨hCD', -, hreach⟩⟩ :=
    G.exists_common_block hq hS hS' hw hw' (fun _ hb => hb.2.1) (fun _ hb => hb.2.1)
  refine ⟨C, hCD', hCr, hreach, ?_⟩
  rw [isCertificate_view hD' self hCD', ← isCertificate_view hD self hCD]
  exact hcert

theorem exists_certificate_of_support (hQ : 0 < c.quorumThreshold.toNat) {D : DagView} (hD : G.IsView D) {round : Nat}
    {B : Block} (hsupport : self.enoughLeaderSupport D round B = true) :
    ∃ C ∈ D.blocks, C.round = round ∧ self.isCertificate G.view C B = true := by
  obtain ⟨S, hS, hw⟩ := enoughLeaderSupport_certificates self hself hD hsupport
  obtain ⟨H, hH⟩ := c.nonempty_of_reachedQuorum hQ hS.2
  obtain ⟨C, -, -, hCD, hCr, hcert⟩ := hw H hH
  exact ⟨C, hCD, hCr, isCertificate_view hD self hCD B ▸ hcert⟩

theorem mem_of_isCertificate (hQ : 0 < c.quorumThreshold.toNat) {D : DagView} (hD : G.IsView D) {C B : Block}
    (hC : C ∈ D.blocks) (hCr : C.round = B.round + 2) (hB : B ∈ G.blocks)
    (h : self.isCertificate G.view C B = true) : B ∈ D.blocks := by
  obtain ⟨S, hS, hw⟩ := isCertificate_votes self hself (hD.subset C hC) hCr h
  obtain ⟨H, hH⟩ := c.nonempty_of_reachedQuorum hQ hS.2
  obtain ⟨V, hVG, -, hVC, -, -, hBV⟩ := hw H hH
  exact (hD.mem_of_ancestor (hD.mem_of_ancestor hC hVG hVC).1 hB hBV).1

end Safety

/-! ### The decisions of one committer -/

theorem round_of_electLeader (self : BaseCommitter) {round : Nat} {s : Slot}
    (h : self.electLeader round = some s) : s.round = round := by
  unfold electLeader at h
  split at h
  · cases h
  · cases h
    rfl

/-- A committer of wave length 3 decides each slot it elects two rounds up. -/
theorem decisionRound_of_electLeader (self : BaseCommitter) {round : Nat} {s : Slot}
    (hwave : self.options.waveLength = 3) (h : self.electLeader round = some s) :
    s.round = round ∧ self.decisionRound (self.waveNumber s.round) = s.round + 2 := by
  refine ⟨round_of_electLeader self h, ?_⟩
  unfold electLeader at h
  split at h
  · cases h
  rename_i hlead
  cases h
  simp only [ne_eq, Decidable.not_not, leaderRound] at hlead
  simp only [decisionRound, hwave] at hlead ⊢
  generalize self.waveNumber round * 3 = t at hlead ⊢
  omega

section Decide

variable {c : Committee} {G : BlockDag c} (self : BaseCommitter) (hself : self.committee = c)
  {D : DagView} (hD : G.IsView D) {s : Slot}
  (hdec : self.decisionRound (self.waveNumber s.round) = s.round + 2)

/-- What the direct rule answers: a skip on a blame quorum, a leader block with a
support quorum, or undecided. -/
theorem tryDirectDecide_cases {st : LeaderStatus} (h : self.tryDirectDecide D s = .ok st) :
    (st = .skip s ∧ self.enoughLeaderBlame D (s.round + 1) s.authority = true) ∨
    (∃ B ∈ D.getUncommittedBlocksAtSlot s, st = .commit B ∧
      self.enoughLeaderSupport D (self.decisionRound (self.waveNumber s.round)) B = true) ∨
    st = .undecided s := by
  unfold tryDirectDecide at h
  dsimp only at h
  split at h
  · cases h
    exact .inl ⟨rfl, ‹_›⟩
  split at h
  · cases h
  cases h
  rw [List.getLast?_map]
  cases hlast : ((D.getUncommittedBlocksAtSlot s).filter
      (self.enoughLeaderSupport D (self.decisionRound (self.waveNumber s.round)))).getLast? with
  | none => exact .inr (.inr rfl)
  | some B =>
    obtain ⟨hB, hsup⟩ := List.mem_filter.1 (List.mem_of_getLast? hlast)
    exact .inr (.inl ⟨B, hB, rfl, hsup⟩)

include hD

/-- The leader blocks the anchor certifies: those with a certificate two rounds up
in the anchor's history. -/
theorem mem_certifiedLeaderBlocks {A : Block} (hA : A ∈ D.blocks) {B : Block} :
    B ∈ (D.getUncommittedBlocksAtSlot s).filter (fun leaderBlock =>
        (D.ancestorsAtRound A (s.round + 2)).any fun potentialCertificate =>
          self.isCertificate D potentialCertificate leaderBlock) ↔
      B ∈ D.getUncommittedBlocksAtSlot s ∧ ∃ C ∈ D.blocks, C.round = s.round + 2 ∧
        D.Reaches A C.reference ∧ self.isCertificate D C B = true := by
  simp only [List.mem_filter, List.any_eq_true, DagView.mem_ancestorsAtRound hD.wellFormed hA]
  constructor
  · rintro ⟨hB, C, ⟨y, hreach, hyr, hget⟩, hcert⟩
    obtain ⟨href, hmem, -⟩ := DagView.getBlock_spec hget
    have hCD := hmem (by simp [genesisRound, hyr])
    exact ⟨hB, C, hCD, by rw [← hyr, ← href]; rfl, href ▸ hreach, hcert⟩
  · rintro ⟨hB, C, hCD, hCr, hreach, hcert⟩
    exact ⟨hB, C, ⟨C.reference, hreach, hCr, hD.getBlock_of_mem (.inl hCD)⟩, hcert⟩

include hdec

/-- What the anchor decides: a leader block with a certificate in the anchor's
history, or a skip when no leader block has one. -/
theorem decideLeaderFromAnchor_cases {A : Block} (hA : A ∈ D.blocks) {st : LeaderStatus}
    (h : self.decideLeaderFromAnchor D A s = .ok st) :
    (∃ B ∈ D.getUncommittedBlocksAtSlot s, st = .commit B ∧ ∃ C ∈ D.blocks,
      C.round = s.round + 2 ∧ D.Reaches A C.reference ∧ self.isCertificate D C B = true) ∨
    (st = .skip s ∧ ∀ B ∈ D.getUncommittedBlocksAtSlot s, ∀ C ∈ D.blocks,
      C.round = s.round + 2 → D.Reaches A C.reference → self.isCertificate D C B = false) := by
  unfold decideLeaderFromAnchor at h
  dsimp only at h
  rw [hdec] at h
  split at h
  · cases h
  split at h
  · rename_i B hlast
    cases h
    have hB := (mem_certifiedLeaderBlocks self hD hA).1 (List.mem_of_getLast? hlast)
    exact .inl ⟨B, hB.1, rfl, hB.2⟩
  · rename_i hlast
    cases h
    refine .inr ⟨rfl, fun B hB C hCD hCr hreach => ?_⟩
    rw [List.getLast?_eq_none_iff] at hlast
    by_contra hcert
    rw [Bool.not_eq_false] at hcert
    have hmem := (mem_certifiedLeaderBlocks self hD hA).2 ⟨hB, C, hCD, hCr, hreach, hcert⟩
    rw [hlast] at hmem
    cases hmem

include hself

/-- The direct rule does not panic: two leader blocks with support would have two
certificates. -/
theorem tryDirectDecide_ok (hq : G.QuorumsMeet) (hQ : 0 < c.quorumThreshold.toNat) :
    ∃ st, self.tryDirectDecide D s = .ok st := by
  unfold tryDirectDecide
  dsimp only
  split
  · exact ⟨_, rfl⟩
  rw [if_neg]
  · exact ⟨_, rfl⟩
  rw [List.length_map, not_lt]
  refine length_le_one_of_eq ((hD.nodup.filter _).filter _) fun B hB B' hB' => ?_
  obtain ⟨hBs, hsup⟩ := List.mem_filter.1 hB
  obtain ⟨hB's, hsup'⟩ := List.mem_filter.1 hB'
  rw [DagView.mem_getUncommittedBlocksAtSlot] at hBs hB's
  rw [hdec] at hsup hsup'
  obtain ⟨C, hCD, hCr, hcert⟩ := exists_certificate_of_support self hself hQ hD hsup
  obtain ⟨C', hC'D, hC'r, hcert'⟩ := exists_certificate_of_support self hself hQ hD hsup'
  have hr : B.round = s.round := congrArg Slot.round hBs.2
  have hr' : B'.round = s.round := congrArg Slot.round hB's.2
  exact certified_eq self hself hq (hD.subset C hCD) (hD.subset C' hC'D) (hD.subset B hBs.1)
    (hD.subset B' hB's.1) (hBs.2.trans hB's.2.symm) (by omega) (by omega) hcert hcert'

/-- Deciding from an anchor of the view does not panic: two certified leader blocks
would be one. -/
theorem decideLeaderFromAnchor_ok (hq : G.QuorumsMeet) {A : Block} (hA : A ∈ D.blocks) :
    ∃ st, self.decideLeaderFromAnchor D A s = .ok st := by
  unfold decideLeaderFromAnchor
  dsimp only
  rw [hdec, if_neg]
  · split <;> exact ⟨_, rfl⟩
  rw [not_lt]
  refine length_le_one_of_eq ((hD.nodup.filter _).filter _) fun B hB B' hB' => ?_
  obtain ⟨hBs, C, hCD, hCr, -, hcert⟩ := (mem_certifiedLeaderBlocks self hD hA).1 hB
  obtain ⟨hB's, C', hC'D, hC'r, -, hcert'⟩ := (mem_certifiedLeaderBlocks self hD hA).1 hB'
  rw [DagView.mem_getUncommittedBlocksAtSlot] at hBs hB's
  rw [isCertificate_view hD self hCD] at hcert
  rw [isCertificate_view hD self hC'D] at hcert'
  have hr : B.round = s.round := congrArg Slot.round hBs.2
  have hr' : B'.round = s.round := congrArg Slot.round hB's.2
  exact certified_eq self hself hq (hD.subset C hCD) (hD.subset C' hC'D) (hD.subset B hBs.1)
    (hD.subset B' hB's.1) (hBs.2.trans hB's.2.symm) (by omega) (by omega) hcert hcert'

end Decide

section Anchors

variable (self : BaseCommitter) (v : DagView) (s : Slot)

/-- A decided answer of the anchor loop comes from its first committed anchor, after
skipped ones only. -/
theorem decideFromAnchors_decided {l : List LeaderStatus} {st : LeaderStatus}
    (h : self.decideFromAnchors v s l = .ok st) (hst : st.isDecided = true) :
    ∃ pre A rest, l = pre ++ .commit A :: rest ∧ (∀ x ∈ pre, ∃ s', x = .skip s') ∧
      self.decideLeaderFromAnchor v A s = .ok st := by
  induction l with
  | nil =>
    simp only [decideFromAnchors, Except.ok.injEq] at h
    subst h
    simp [LeaderStatus.isDecided] at hst
  | cons x rest ih =>
    cases x with
    | commit A => exact ⟨[], A, rest, rfl, by simp, h⟩
    | skip s' =>
      obtain ⟨pre, A, rest', hl, hpre, hA⟩ := ih h
      refine ⟨.skip s' :: pre, A, rest', by simp [hl], fun x hx => ?_, hA⟩
      rcases List.mem_cons.1 hx with rfl | hx
      · exact ⟨s', rfl⟩
      · exact hpre x hx
    | undecided s' =>
      simp only [decideFromAnchors, Except.ok.injEq] at h
      subst h
      simp [LeaderStatus.isDecided] at hst

/-- The anchor loop does not panic when no committed anchor does. -/
theorem decideFromAnchors_ok {l : List LeaderStatus}
    (hanchors : ∀ A, .commit A ∈ l → ∃ st, self.decideLeaderFromAnchor v A s = .ok st) :
    ∃ st, self.decideFromAnchors v s l = .ok st := by
  induction l with
  | nil => exact ⟨_, rfl⟩
  | cons x rest ih =>
    cases x with
    | commit A => exact hanchors A List.mem_cons_self
    | skip s' => exact ih fun A hA => hanchors A (List.mem_cons_of_mem _ hA)
    | undecided s' => exact ⟨_, rfl⟩

end Anchors

theorem isCertificate_eq_of_committee {k k' : BaseCommitter} (h : k.committee = k'.committee)
    (v : DagView) (C B : Block) : k.isCertificate v C B = k'.isCertificate v C B := by
  simp only [isCertificate, h]

/-! ### Two views decide a slot alike -/

section TwoViews

variable {c : Committee} {G : BlockDag c} (hq : G.QuorumsMeet) (hQ : 0 < c.quorumThreshold.toNat)
  {k1 k2 : BaseCommitter} (hk1 : k1.committee = c) (hk2 : k2.committee = c)
  {D1 D2 : DagView} (hD1 : G.IsView D1) (hD2 : G.IsView D2) {s : Slot}
  (hdec1 : k1.decisionRound (k1.waveNumber s.round) = s.round + 2)
  (hdec2 : k2.decisionRound (k2.waveNumber s.round) = s.round + 2)

omit hq hQ hk1 hD1 in
/-- A direct commit is of a block of the slot with a support quorum. -/
theorem direct_commit_spec {k : BaseCommitter} {D : DagView} {B : Block}
    (hdec : k.decisionRound (k.waveNumber s.round) = s.round + 2)
    (h : k.tryDirectDecide D s = .ok (.commit B)) :
    B ∈ D.blocks ∧ B.slot = s ∧ k.enoughLeaderSupport D (B.round + 2) B = true := by
  rcases tryDirectDecide_cases k h with ⟨hst, -⟩ | ⟨B', hB', hst, hsup⟩ | hst
  · cases hst
  · simp only [LeaderStatus.commit.injEq] at hst
    subst hst
    rw [DagView.mem_getUncommittedBlocksAtSlot] at hB'
    have hr : B.round = s.round := congrArg Slot.round hB'.2
    rw [hdec, ← hr] at hsup
    exact ⟨hB'.1, hB'.2, hsup⟩
  · cases hst

omit hq hQ hk1 hD1 in
/-- A direct skip rests on a blame quorum. -/
theorem direct_skip_spec {k : BaseCommitter} {D : DagView} {s' : Slot}
    (h : k.tryDirectDecide D s = .ok (.skip s')) :
    k.enoughLeaderBlame D (s.round + 1) s.authority = true := by
  rcases tryDirectDecide_cases k h with ⟨-, hblame⟩ | ⟨B', -, hst, -⟩ | hst
  · exact hblame
  · cases hst
  · cases hst

include hq hQ hk1 hk2 hD1 hD2 hdec1 hdec2

theorem direct_commit_eq {B1 B2 : Block} (h1 : k1.tryDirectDecide D1 s = .ok (.commit B1))
    (h2 : k2.tryDirectDecide D2 s = .ok (.commit B2)) : B1 = B2 := by
  obtain ⟨hB1, hs1, hsup1⟩ := direct_commit_spec hdec1 h1
  obtain ⟨hB2, hs2, hsup2⟩ := direct_commit_spec hdec2 h2
  obtain ⟨C1, hC1, hC1r, hcert1⟩ := exists_certificate_of_support k1 hk1 hQ hD1 hsup1
  obtain ⟨C2, hC2, hC2r, hcert2⟩ := exists_certificate_of_support k2 hk2 hQ hD2 hsup2
  rw [isCertificate_eq_of_committee (hk2.trans hk1.symm)] at hcert2
  exact certified_eq k1 hk1 hq (hD1.subset C1 hC1) (hD2.subset C2 hC2) (hD1.subset B1 hB1)
    (hD2.subset B2 hB2) (hs1.trans hs2.symm) hC1r hC2r hcert1 hcert2

omit hdec2 in
theorem direct_commit_not_skip {B : Block} {s' : Slot}
    (h1 : k1.tryDirectDecide D1 s = .ok (.commit B))
    (h2 : k2.tryDirectDecide D2 s = .ok (.skip s')) : False := by
  obtain ⟨-, hs, hsup⟩ := direct_commit_spec hdec1 h1
  obtain ⟨C, hC, hCr, hcert⟩ := exists_certificate_of_support k1 hk1 hQ hD1 hsup
  have hblame := direct_skip_spec h2
  rw [← hs] at hblame
  rw [isCertificate_eq_of_committee (hk1.trans hk2.symm),
    not_certified_of_blame k2 hk2 hq hD2 (hD1.subset C hC) hCr hblame] at hcert
  cases hcert

/-- A direct commit of `B` makes every anchor three rounds up commit `B`. -/
theorem anchor_of_direct_commit {B A : Block} {st : LeaderStatus}
    (h1 : k1.tryDirectDecide D1 s = .ok (.commit B)) (hA : A ∈ D2.blocks)
    (hAr : s.round + 2 < A.round) (h2 : k2.decideLeaderFromAnchor D2 A s = .ok st) :
    st = .commit B := by
  obtain ⟨hB, hs, hsup⟩ := direct_commit_spec hdec1 h1
  have hr : B.round = s.round := congrArg Slot.round hs
  obtain ⟨C, hC, hCr, hreach, hcert⟩ :=
    certificate_reachable k1 hk1 hq hQ hD1 hD2 hsup hA (by omega)
  rw [isCertificate_eq_of_committee (hk1.trans hk2.symm)] at hcert
  have hBD2 : B ∈ D2.blocks := mem_of_isCertificate k2 hk2 hQ hD2 hC hCr (hD1.subset B hB)
    (isCertificate_view hD2 k2 hC B ▸ hcert)
  rcases decideLeaderFromAnchor_cases k2 hD2 hdec2 hA h2 with
    ⟨B', hB', rfl, C', hC', hC'r, -, hcert'⟩ | ⟨-, hnone⟩
  · rw [DagView.mem_getUncommittedBlocksAtSlot] at hB'
    rw [isCertificate_view hD2 k2 hC'] at hcert'
    rw [isCertificate_view hD2 k2 hC] at hcert
    have hr' : B'.round = s.round := congrArg Slot.round hB'.2
    rw [certified_eq k2 hk2 hq (hD2.subset C' hC') (hD2.subset C hC) (hD2.subset B' hB'.1)
      (hD1.subset B hB) (hB'.2.trans hs.symm) (by omega) (by omega) hcert' hcert]
  · have := hnone B ((DagView.mem_getUncommittedBlocksAtSlot D2).2 ⟨hBD2, hs⟩) C hC
      (by omega) hreach
    rw [this] at hcert
    cases hcert

omit hQ hdec1 in
/-- A direct skip leaves no anchor anything to commit. -/
theorem anchor_not_commit_of_direct_skip {A B : Block} {s' : Slot}
    (h1 : k1.tryDirectDecide D1 s = .ok (.skip s')) (hA : A ∈ D2.blocks)
    (h2 : k2.decideLeaderFromAnchor D2 A s = .ok (.commit B)) : False := by
  have hblame := direct_skip_spec h1
  rcases decideLeaderFromAnchor_cases k2 hD2 hdec2 hA h2 with
    ⟨B', hB', hst, C, hC, hCr, -, hcert⟩ | ⟨hst, -⟩
  · cases hst
    rw [DagView.mem_getUncommittedBlocksAtSlot] at hB'
    have hr : B.round = s.round := congrArg Slot.round hB'.2
    have ha : B.author = s.authority := congrArg Slot.authority hB'.2
    rw [← hr, ← ha] at hblame
    rw [isCertificate_view hD2 k2 hC, isCertificate_eq_of_committee (hk2.trans hk1.symm),
      not_certified_of_blame k1 hk1 hq hD1 (hD2.subset C hC) (by omega) hblame] at hcert
    cases hcert
  · cases hst

/-- What one anchor commits in a view, it commits in every view that holds it. -/
theorem anchor_commit_transfer {A B : Block} {st : LeaderStatus}
    (hA1 : A ∈ D1.blocks) (hA2 : A ∈ D2.blocks)
    (h1 : k1.decideLeaderFromAnchor D1 A s = .ok (.commit B))
    (h2 : k2.decideLeaderFromAnchor D2 A s = .ok st) : st = .commit B := by
  rcases decideLeaderFromAnchor_cases k1 hD1 hdec1 hA1 h1 with
    ⟨B', hB', hst, C, hC, hCr, hreach, hcert⟩ | ⟨hst, -⟩
  · cases hst
    rw [DagView.mem_getUncommittedBlocksAtSlot] at hB'
    have hr : B.round = s.round := congrArg Slot.round hB'.2
    -- the certificate is in the anchor's history in the other view too
    have hreach2 : D2.Reaches A C.reference :=
      (reaches_view hD2 (.inl hA2)).2 ((reaches_view hD1 (.inl hA1)).1 hreach)
    obtain ⟨C', hget⟩ := hreach2.present hD2.wellFormed (.inl hA2)
      (by simp [genesisRound, hCr])
    have hCC' : C' = C := BlockDag.eq_of_reference_eq (hD2.mem_of_getBlock_view hget)
      (List.mem_append_right _ (hD1.subset C hC)) (DagView.getBlock_spec hget).1
    subst hCC'
    have hC2 : C' ∈ D2.blocks := (DagView.getBlock_spec hget).2.1 (by simp [genesisRound, hCr])
    rw [isCertificate_view hD1 k1 hC, isCertificate_eq_of_committee (hk1.trans hk2.symm)] at hcert
    have hBD2 : B ∈ D2.blocks :=
      mem_of_isCertificate k2 hk2 hQ hD2 hC2 (by omega) (hD1.subset B hB'.1) hcert
    rcases decideLeaderFromAnchor_cases k2 hD2 hdec2 hA2 h2 with
      ⟨B'', hB'', rfl, C'', hC'', hC''r, -, hcert''⟩ | ⟨-, hnone⟩
    · rw [DagView.mem_getUncommittedBlocksAtSlot] at hB''
      rw [isCertificate_view hD2 k2 hC''] at hcert''
      have hr'' : B''.round = s.round := congrArg Slot.round hB''.2
      rw [certified_eq k2 hk2 hq (hD2.subset C'' hC'') (hD2.subset C' hC2)
        (hD2.subset B'' hB''.1) (hD1.subset B hB'.1) (hB''.2.trans hB'.2.symm) (by omega)
        (by omega) hcert'' hcert]
    · have := hnone B ((DagView.mem_getUncommittedBlocksAtSlot D2).2 ⟨hBD2, hB'.2⟩) C' hC2
        hCr hreach2
      rw [isCertificate_view hD2 k2 hC2, hcert] at this
      cases this
  · cases hst

theorem anchor_decision_eq {A : Block} {st1 st2 : LeaderStatus}
    (hA1 : A ∈ D1.blocks) (hA2 : A ∈ D2.blocks)
    (h1 : k1.decideLeaderFromAnchor D1 A s = .ok st1)
    (h2 : k2.decideLeaderFromAnchor D2 A s = .ok st2) : st1 = st2 := by
  rcases decideLeaderFromAnchor_cases k1 hD1 hdec1 hA1 h1 with ⟨B, -, rfl, -⟩ | ⟨rfl, -⟩
  · exact (anchor_commit_transfer hq hQ hk1 hk2 hD1 hD2 hdec1 hdec2 hA1 hA2 h1 h2).symm
  · rcases decideLeaderFromAnchor_cases k2 hD2 hdec2 hA2 h2 with ⟨B, -, rfl, -⟩ | ⟨rfl, -⟩
    · cases anchor_commit_transfer hq hQ hk2 hk1 hD2 hD1 hdec2 hdec1 hA2 hA1 h2 h1
    · rfl

end TwoViews

end BaseCommitter

end Rtd
