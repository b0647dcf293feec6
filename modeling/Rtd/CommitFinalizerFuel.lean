import Rtd.CommitFinalizer

/-!
The fuel of the finalizer's loops. The source runs three of its loops as `while` loops; the
model bounds each by a fuel and returns what it has when the fuel runs out. Each is shown
here to stop before that: from the fuel its caller passes on, more fuel gives the same
result, so the cut at zero fuel is never what the model returns.

* `indirectFinalizeCommits` outputs a commit in every round that goes on, so fewer commits
  stay buffered; `process_commit` passes the number of buffered commits.
* `visitBlocks` visits a buffered block not visited before in every step that goes on, for
  no block waiting to be visited has been visited; the caller passes one more step than
  there are buffered blocks.
* `appendOriginDescendant` walks down first ancestors, which are of earlier rounds in a block
  graph built from verified blocks (`Descends`, kept along every run of `processCommits`);
  the caller passes one more step than there are buffered blocks.
-/

set_option autoImplicit false

namespace Rtd

namespace CommitFinalizer

/-! ### The indirect finalization loop -/

section Indirect

variable (ctx : Context) (certifier : TransactionCertifier.CertifierState)

theorem length_pendingCommits_of_keeps {s s' : CommitFinalizer} (h : KeepsCommits s s') :
    s'.pendingCommits.length = s.pendingCommits.length := by
  simpa [buffered] using congrArg List.length h.2

theorem popFinalizedCommits_length {overflowChecks : Bool} {s : CommitFinalizer}
    {r : List CommittedSubDag × CommitFinalizer}
    (h : popFinalizedCommits overflowChecks s = .ok r) :
    r.1.length + r.2.pendingCommits.length = s.pendingCommits.length := by
  simpa [buffered] using congrArg List.length (popFinalizedCommits_order h).2

/-- With at least as much fuel as there are buffered commits, one more unit changes nothing:
a round that goes on has output a commit, and so leaves fewer buffered. -/
theorem indirectFinalizeCommits_succ_of_length_le {fuel : Nat} {s : CommitFinalizer}
    (hfuel : s.pendingCommits.length ≤ fuel) :
    indirectFinalizeCommits ctx certifier (fuel + 1) s =
      indirectFinalizeCommits ctx certifier fuel s := by
  induction fuel generalizing s with
  | zero =>
    have hnil : s.pendingCommits = [] := List.eq_nil_of_length_eq_zero (Nat.le_zero.1 hfuel)
    simp [indirectFinalizeCommits, hnil]
  | succ fuel ih =>
    rw [indirectFinalizeCommits.eq_2, indirectFinalizeCommits.eq_2]
    split
    · split_ifs
      · rfl
      · refine Except.bind_congr_ok fun s₁ h₁ => Except.bind_congr_ok fun popped h₂ => ?_
        split_ifs with hempty
        · rfl
        · -- the round output a commit: one fewer is buffered than the fuel
          have hkeep := length_pendingCommits_of_keeps (tryIndirectFinalizeFirstCommit_keeps ctx
            certifier h₁)
          have hpop := popFinalizedCommits_length h₂
          have hout : 0 < popped.1.length :=
            List.length_pos_iff.2 fun h => hempty (List.isEmpty_iff.2 h)
          rw [ih (by omega)]
    · rfl

/-- The loop's result at any fuel from the number of buffered commits on. -/
theorem indirectFinalizeCommits_fuel_adequate {fuel fuel' : Nat} {s : CommitFinalizer}
    (hfuel : s.pendingCommits.length ≤ fuel) (hle : fuel ≤ fuel') :
    indirectFinalizeCommits ctx certifier fuel' s =
      indirectFinalizeCommits ctx certifier fuel s := by
  induction fuel', hle using Nat.le_induction with
  | base => rfl
  | succ m hm ih =>
    rw [indirectFinalizeCommits_succ_of_length_le ctx certifier (hfuel.trans hm), ih]

/-- The fuel `process_commit` passes, the number of buffered commits, is enough. -/
theorem indirectFinalizeCommits_length_add (s : CommitFinalizer) (k : Nat) :
    indirectFinalizeCommits ctx certifier (s.pendingCommits.length + k) s =
      indirectFinalizeCommits ctx certifier s.pendingCommits.length s :=
  indirectFinalizeCommits_fuel_adequate ctx certifier le_rfl (Nat.le_add_right _ k)

end Indirect

/-! ### The traversal of the block graph -/

section Visit

variable (ctx : Context) (blocks : OrderedMap BlockRef BlockState)

/-- What the traversal keeps: no block waiting to be visited has been visited, and every block
visited is buffered. -/
structure Traversal.Inv (t : Traversal) : Prop where
  toVisit_not_visited : ∀ b ∈ t.toVisit.keys, b ∉ t.visited
  visited_buffered : t.visited ⊆ blocks.keys.toFinset

variable {blocks}

theorem Traversal.Inv.card_le {t : Traversal} (hinv : t.Inv blocks) :
    t.visited.card ≤ blocks.entries.length :=
  calc t.visited.card ≤ blocks.keys.toFinset.card := Finset.card_le_card hinv.visited_buffered
    _ = blocks.entries.length := blocks.card_keys_toFinset

/-- The block popped has not been visited, and neither has any block after it. -/
theorem Traversal.Inv.pop {t : Traversal} (hinv : t.Inv blocks) {curr : BlockRef} {u : Unit}
    {toVisit : OrderedMap BlockRef Unit} (hpop : t.toVisit.popFirst = some ((curr, u), toVisit)) :
    curr ∉ t.visited ∧ ∀ b ∈ toVisit.keys, b ∉ insert curr t.visited := by
  have hkeys : t.toVisit.keys = curr :: toVisit.keys := by
    simp [OrderedMap.keys, OrderedMap.popFirst_eq_some hpop]
  have hnodup := OrderedMap.nodup_keys t.toVisit
  rw [hkeys, List.nodup_cons] at hnodup
  refine ⟨hinv.toVisit_not_visited curr (by simp [hkeys]), fun b hb hvisited => ?_⟩
  rcases Finset.mem_insert.1 hvisited with rfl | hvisited
  · exact hnodup.1 hb
  · exact hinv.toVisit_not_visited b (by simp [hkeys, hb]) hvisited

theorem extendToVisit_not_visited {toVisit children : OrderedMap BlockRef Unit}
    {visited : Finset BlockRef} (h : ∀ b ∈ toVisit.keys, b ∉ visited) :
    ∀ b ∈ (extendToVisit toVisit children visited).keys, b ∉ visited := by
  intro b hb
  rcases OrderedMap.mem_keys_foldl_insert (fun b => b) (fun _ => ⟨⟩) toVisit hb with
    hb | ⟨x, hx, rfl⟩
  · exact h b hb
  · exact (List.mem_filter.1 hx).2 |> of_decide_eq_true

/-- A step that visits a buffered block goes on with the invariant and one more block
visited, whether the block's children wait to be visited or not. -/
theorem Traversal.Inv.visit {t t' : Traversal} (hinv : t.Inv blocks) {curr : BlockRef} {u : Unit}
    {toVisit : OrderedMap BlockRef Unit} (hpop : t.toVisit.popFirst = some ((curr, u), toVisit))
    {st : BlockState} (hst : blocks.get? curr = some st)
    (hvisited : t'.visited = insert curr t.visited)
    (htoVisit : t'.toVisit = toVisit ∨
      t'.toVisit = extendToVisit toVisit st.children (insert curr t.visited)) :
    t'.Inv blocks ∧ t'.visited.card = t.visited.card + 1 := by
  obtain ⟨hcurr, hrest⟩ := hinv.pop hpop
  have hbuffered : curr ∈ blocks.keys.toFinset := OrderedMap.mem_keys_toFinset_of_get? hst
  refine ⟨⟨?_, ?_⟩, by rw [hvisited, Finset.card_insert_of_notMem hcurr]⟩
  · rw [hvisited]
    rcases htoVisit with h | h <;> rw [h]
    · exact hrest
    · exact extendToVisit_not_visited hrest
  · rw [hvisited]
    exact Finset.insert_subset hbuffered hinv.visited_buffered

variable (blocks) (gcRounds : List (Nat × Nat)) (pendingBlockRef : BlockRef)
  (pendingCommitIndex : Nat)

/-- With more fuel than there are buffered blocks not yet visited, one more unit changes
nothing: a step that goes on visits one of them. -/
theorem visitBlocks_succ_of_inv {fuel : Nat} {t : Traversal} (hinv : t.Inv blocks)
    (hfuel : blocks.entries.length - t.visited.card < fuel) :
    visitBlocks ctx blocks gcRounds pendingBlockRef pendingCommitIndex (fuel + 1) t =
      visitBlocks ctx blocks gcRounds pendingBlockRef pendingCommitIndex fuel t := by
  induction fuel generalizing t with
  | zero => omega
  | succ fuel ih =>
    rw [visitBlocks.eq_2, visitBlocks.eq_2]
    split
    · rfl
    · rename_i curr u toVisit hpop
      have hcurr := (hinv.pop hpop).1
      simp only [hcurr, if_false]
      split
      · rfl
      · rename_i st hst
        -- the three ways on share one argument: the next traversal visits one block more
        have hnext : ∀ t' : Traversal, t'.visited = insert curr t.visited →
            (t'.toVisit = toVisit ∨
              t'.toVisit = extendToVisit toVisit st.children (insert curr t.visited)) →
            visitBlocks ctx blocks gcRounds pendingBlockRef pendingCommitIndex (fuel + 1) t' =
              visitBlocks ctx blocks gcRounds pendingBlockRef pendingCommitIndex fuel t' := by
          intro t' hvisited htoVisit
          obtain ⟨hinv', hcard⟩ := hinv.visit hpop hst hvisited htoVisit
          have hle := hinv'.card_le
          exact ih hinv' (by omega)
        refine Except.bind_congr_ok fun votesGced _ => ?_
        split_ifs
        · exact hnext _ rfl (.inr rfl)
        · exact hnext _ rfl (.inl rfl)
        · rfl
        · exact hnext _ rfl (.inr rfl)

theorem visitBlocks_fuel_adequate {fuel fuel' : Nat} {t : Traversal} (hinv : t.Inv blocks)
    (hfuel : blocks.entries.length - t.visited.card < fuel) (hle : fuel ≤ fuel') :
    visitBlocks ctx blocks gcRounds pendingBlockRef pendingCommitIndex fuel' t =
      visitBlocks ctx blocks gcRounds pendingBlockRef pendingCommitIndex fuel t := by
  induction fuel', hle using Nat.le_induction with
  | base => rfl
  | succ m hm ih => rw [visitBlocks_succ_of_inv ctx blocks gcRounds pendingBlockRef
      pendingCommitIndex hinv (lt_of_lt_of_le hfuel hm), ih]

/-- The traversal `try_indirect_finalize_pending_transactions_in_block` starts, from the
children of the pending block with nothing visited, has fuel to spare. -/
theorem visitBlocks_start_add (children : OrderedMap BlockRef Unit)
    (acceptVotes : OrderedMap Nat StakeAggregator) (k : Nat) :
    visitBlocks ctx blocks gcRounds pendingBlockRef pendingCommitIndex
        (blocks.entries.length + 1 + k) ⟨children, ∅, ∅, acceptVotes, []⟩ =
      visitBlocks ctx blocks gcRounds pendingBlockRef pendingCommitIndex
        (blocks.entries.length + 1) ⟨children, ∅, ∅, acceptVotes, []⟩ := by
  have hinv : Traversal.Inv blocks ⟨children, ∅, ∅, acceptVotes, []⟩ :=
    ⟨fun _ _ => Finset.notMem_empty _, Finset.empty_subset _⟩
  exact visitBlocks_fuel_adequate ctx blocks gcRounds pendingBlockRef pendingCommitIndex hinv
    (by simp) (Nat.le_add_right _ k)

end Visit

/-! ### The walk down first ancestors -/

section Origin

/-- A block whose first ancestor is of an earlier round. -/
def FirstAncestorBelow (b : VerifiedBlock) : Prop := ∀ a ∈ b.ancestors.head?, a.round < b.round

theorem firstAncestorBelow_of_verified {c : Committee} {genesis : List BlockRef}
    {b : VerifiedBlock} (h : SignedBlockVerifier.Verified c genesis b.toBlock) :
    FirstAncestorBelow b :=
  fun a ha => h.ancestor_round_lt a (List.mem_of_mem_head? ha)

/-- The block graph descends along first ancestors: the first ancestor of the block buffered
under a reference is of an earlier round than the reference. -/
def Descending (blocks : OrderedMap BlockRef BlockState) : Prop :=
  ∀ k st, blocks.get? k = some st → ∀ a ∈ st.block.ancestors.head?, a.round < k.round

variable {blocks : OrderedMap BlockRef BlockState}

theorem Descending.insert_of_block_eq (hm : Descending blocks) {k : BlockRef} {st st' : BlockState}
    (hst : blocks.get? k = some st) (hblock : st'.block = st.block) :
    Descending (blocks.insert k st') := by
  intro k' st'' h
  rcases OrderedMap.get?_insert_eq_some.1 h with ⟨rfl, rfl⟩ | ⟨-, h⟩
  · rw [hblock]
    exact hm k' st hst
  · exact hm k' st'' h

/-- A new block state, stored under the block's reference, as `link_blocks_in_last_commit`
stores it. -/
theorem Descending.insert_new (hm : Descending blocks) {b : VerifiedBlock}
    (hb : FirstAncestorBelow b) (i : Nat) :
    Descending (blocks.insert b.reference (BlockState.new b i)) := by
  intro k st h
  rcases OrderedMap.get?_insert_eq_some.1 h with ⟨rfl, rfl⟩ | ⟨-, h⟩
  · exact hb
  · exact hm k st h

theorem Descending.erase (hm : Descending blocks) (k : BlockRef) : Descending (blocks.erase k) := by
  intro k' st h
  rw [OrderedMap.get?_erase] at h
  split_ifs at h
  exact hm k' st h

theorem Descending.foldl {α : Type}
    {f : OrderedMap BlockRef BlockState → α → OrderedMap BlockRef BlockState} {l : List α}
    (hf : ∀ m, ∀ x ∈ l, Descending m → Descending (f m x)) (hm : Descending blocks) :
    Descending (l.foldl f blocks) := by
  induction l generalizing blocks with
  | nil => exact hm
  | cons x xs ih =>
    exact ih (fun m y hy => hf m y (List.mem_cons_of_mem x hy)) (hf blocks x List.mem_cons_self hm)

theorem Descending.linkBlock (hm : Descending blocks) {block : VerifiedBlock}
    (hb : FirstAncestorBelow block) (i : Nat) : Descending (linkBlock i blocks block) := by
  unfold CommitFinalizer.linkBlock
  suffices h : ∀ m, Descending m → Descending (if m.contains block.reference then m
      else m.insert block.reference (BlockState.new block i)) by
    -- the ancestors record the block as a child, which leaves their own blocks as they were
    refine h _ (Descending.foldl (fun m ancestor _ hm' => ?_) hm)
    split
    · exact hm'
    · rename_i st hst
      exact hm'.insert_of_block_eq hst rfl
  intro m hm'
  split_ifs
  · exact hm'
  · exact hm'.insert_new hb i

/-- One walk down the first ancestors leaves the blocks as they were. -/
theorem Descending.appendOriginDescendant (hm : Descending blocks) {committed a : BlockRef}
    {fuel : Nat} {blocks' : OrderedMap BlockRef BlockState}
    (h : appendOriginDescendant committed fuel a blocks = .ok blocks') : Descending blocks' := by
  induction fuel generalizing a blocks with
  | zero => cases h; exact hm
  | succ fuel ih =>
    rw [CommitFinalizer.appendOriginDescendant.eq_2] at h
    split_ifs at h
    · cases h; exact hm
    · split at h
      · cases h; exact hm
      · rename_i st hst
        split at h
        · cases h
        · refine ih ?_ h
          exact hm.insert_of_block_eq hst rfl

/-- The buffered blocks of rounds up to that of `a`: what bounds the walk down from `a`. -/
def roundsUpTo (blocks : OrderedMap BlockRef BlockState) (a : BlockRef) : Nat :=
  (blocks.keys.toFinset.filter fun k => k.round ≤ a.round).card

theorem roundsUpTo_le (a : BlockRef) : roundsUpTo blocks a ≤ blocks.entries.length :=
  calc roundsUpTo blocks a ≤ blocks.keys.toFinset.card := Finset.card_filter_le _ _
    _ = blocks.entries.length := blocks.card_keys_toFinset

theorem roundsUpTo_insert_of_get? {k : BlockRef} {st st' : BlockState}
    (hst : blocks.get? k = some st) (a : BlockRef) :
    roundsUpTo (blocks.insert k st') a = roundsUpTo blocks a := by
  have hkeys : (blocks.insert k st').keys.toFinset = blocks.keys.toFinset := by
    ext b
    simp only [List.mem_toFinset, OrderedMap.mem_keys_insert]
    exact ⟨fun h => h.elim (fun h => h ▸ OrderedMap.mem_keys.2 ⟨st, hst⟩) id, .inr⟩
  rw [roundsUpTo, roundsUpTo, hkeys]

/-- From a buffered block down to one of an earlier round, fewer blocks are of rounds up to
it. -/
theorem roundsUpTo_lt {a next : BlockRef} {st : BlockState} (hst : blocks.get? a = some st)
    (hlt : next.round < a.round) : roundsUpTo blocks next < roundsUpTo blocks a := by
  apply Finset.card_lt_card
  have hsub : (blocks.keys.toFinset.filter fun k => k.round ≤ next.round) ⊆
      blocks.keys.toFinset.filter fun k => k.round ≤ a.round := fun k hk =>
    Finset.mem_filter.2 ⟨(Finset.mem_filter.1 hk).1, le_trans (Finset.mem_filter.1 hk).2 hlt.le⟩
  refine (Finset.ssubset_iff_of_subset hsub).2 ⟨a, ?_, ?_⟩
  · exact Finset.mem_filter.2 ⟨OrderedMap.mem_keys_toFinset_of_get? hst, le_rfl⟩
  · simp only [Finset.mem_filter, not_and, not_le]
    exact fun _ => hlt

theorem get?_eq_none_of_roundsUpTo_eq_zero {a : BlockRef} (h : roundsUpTo blocks a = 0) :
    blocks.get? a = none := by
  cases hst : blocks.get? a with
  | none => rfl
  | some st =>
    have hmem : a ∈ blocks.keys.toFinset.filter fun k => k.round ≤ a.round :=
      Finset.mem_filter.2 ⟨OrderedMap.mem_keys_toFinset_of_get? hst, le_rfl⟩
    rw [roundsUpTo, Finset.card_eq_zero] at h
    rw [h] at hmem
    exact absurd hmem (Finset.notMem_empty a)

/-- In a descending block graph, with as much fuel as there are buffered blocks of rounds up
to the start, one more unit changes nothing: each step goes down a round. -/
theorem appendOriginDescendant_succ_of_descending (committed : BlockRef) {fuel : Nat}
    {a : BlockRef} (hm : Descending blocks) (hfuel : roundsUpTo blocks a ≤ fuel) :
    appendOriginDescendant committed (fuel + 1) a blocks =
      appendOriginDescendant committed fuel a blocks := by
  induction fuel generalizing a blocks with
  | zero =>
    have hnone := get?_eq_none_of_roundsUpTo_eq_zero (Nat.le_zero.1 hfuel)
    simp [appendOriginDescendant, hnone]
  | succ fuel ih =>
    rw [appendOriginDescendant.eq_2, appendOriginDescendant.eq_2]
    split_ifs
    · rfl
    · split
      · rfl
      · rename_i st hst
        split
        · rfl
        · rename_i next hnext
          have hlt := roundsUpTo_lt hst (hm a st hst next hnext)
          refine ih ?_ ?_
          · exact hm.insert_of_block_eq hst rfl
          · rw [roundsUpTo_insert_of_get? hst]
            omega

theorem appendOriginDescendant_fuel_adequate (committed : BlockRef) {fuel fuel' : Nat}
    {a : BlockRef} (hm : Descending blocks) (hfuel : roundsUpTo blocks a ≤ fuel)
    (hle : fuel ≤ fuel') :
    appendOriginDescendant committed fuel' a blocks =
      appendOriginDescendant committed fuel a blocks := by
  induction fuel', hle using Nat.le_induction with
  | base => rfl
  | succ m hm' ih =>
    rw [appendOriginDescendant_succ_of_descending committed hm (hfuel.trans hm'), ih]

/-- The fuel `append_origin_descendants_from_last_commit` passes, one more than the buffered
blocks, is enough in a descending block graph. -/
theorem appendOriginDescendant_length_add (committed a : BlockRef) (hm : Descending blocks)
    (k : Nat) :
    appendOriginDescendant committed (blocks.entries.length + 1 + k) a blocks =
      appendOriginDescendant committed (blocks.entries.length + 1) a blocks :=
  appendOriginDescendant_fuel_adequate committed hm ((roundsUpTo_le a).trans (Nat.le_succ _))
    (Nat.le_add_right _ k)

theorem Descending.popFinalized (hm : Descending blocks) {overflowChecks : Bool}
    {l : List CommitState}
    {r : List CommittedSubDag × List CommitState × OrderedMap BlockRef BlockState}
    (h : popFinalized overflowChecks l blocks = .ok r) : Descending r.2.2 := by
  induction l generalizing blocks r with
  | nil => cases h; exact hm
  | cons cs rest ih =>
    unfold CommitFinalizer.popFinalized at h
    split_ifs at h
    · cases h
      exact hm
    · obtain ⟨_, -, h⟩ := Except.bind_eq_ok.1 h
      obtain ⟨r', hr', rfl⟩ := Except.bind_pure_eq_ok.1 h
      have herase := Descending.foldl (l := cs.finalizedCommit.blocks)
        (fun m (b : VerifiedBlock) _ hm' => hm'.erase b.reference) hm
      exact ih (r := r') herase hr'

end Origin

/-! ### Every state of a run descends -/

section Frame

variable (ctx : Context) (certifier : TransactionCertifier.CertifierState)

theorem tryDirectFinalizeCommit_blocks {s s' : CommitFinalizer} {i : Nat}
    (h : tryDirectFinalizeCommit ctx certifier s i = .ok s') : s'.blocks = s.blocks := by
  unfold tryDirectFinalizeCommit at h
  split at h
  · cases h
  · split at h
    · cases h
    · obtain ⟨_, -, rfl⟩ := Except.bind_pure_eq_ok.1 h
      rfl

theorem directFinalizeCommits_blocks {s s' : CommitFinalizer} {is : List Nat}
    (h : directFinalizeCommits ctx certifier s is = .ok s') : s'.blocks = s.blocks := by
  induction is generalizing s with
  | nil => cases h; rfl
  | cons i rest ih =>
    rcases directFinalizeCommits_cons_eq_ok ctx certifier h with h | rfl | ⟨s₁, h₁, h⟩
    · exact ih h
    · rfl
    · exact (ih h).trans (tryDirectFinalizeCommit_blocks ctx certifier h₁)

theorem checkPendingTransactionsInFirstCommit_blocks {s s' : CommitFinalizer}
    (h : checkPendingTransactionsInFirstCommit ctx certifier s = .ok s') :
    s'.blocks = s.blocks := by
  unfold checkPendingTransactionsInFirstCommit at h
  split at h
  · cases h
  · obtain ⟨_, -, rfl⟩ := Except.bind_pure_eq_ok.1 h
    rfl

theorem tryIndirectFinalizePendingTransactionsInFirstCommit_blocks {s s' : CommitFinalizer}
    (h : tryIndirectFinalizePendingTransactionsInFirstCommit ctx s = .ok s') :
    s'.blocks = s.blocks := by
  unfold tryIndirectFinalizePendingTransactionsInFirstCommit at h
  split at h
  · cases h
  · obtain ⟨_, -, rfl⟩ := Except.bind_pure_eq_ok.1 h
    rfl

theorem tryIndirectRejectPendingTransactionsInFirstCommit_blocks {s s' : CommitFinalizer}
    (h : tryIndirectRejectPendingTransactionsInFirstCommit s = .ok s') : s'.blocks = s.blocks := by
  unfold tryIndirectRejectPendingTransactionsInFirstCommit at h
  split at h
  · split_ifs at h <;> cases h <;> rfl
  · cases h

theorem tryIndirectFinalizeFirstCommit_blocks {s s' : CommitFinalizer}
    (h : tryIndirectFinalizeFirstCommit ctx certifier s = .ok s') : s'.blocks = s.blocks := by
  obtain ⟨s₁, s₂, h₁, h₂, h₃⟩ := tryIndirectFinalizeFirstCommit_eq_ok ctx certifier h
  rw [tryIndirectRejectPendingTransactionsInFirstCommit_blocks h₃,
    tryIndirectFinalizePendingTransactionsInFirstCommit_blocks ctx h₂,
    checkPendingTransactionsInFirstCommit_blocks ctx certifier h₁]

end Frame

/-- What every state of a run over verified blocks satisfies: the block graph descends, and
every block of a buffered commit has its first ancestor below it. -/
structure Descends (s : CommitFinalizer) : Prop where
  graph : Descending s.blocks
  commits : ∀ d ∈ buffered s, ∀ b ∈ d.blocks, FirstAncestorBelow b

theorem descends_new : Descends new :=
  ⟨fun _ _ h => (nomatch h), fun _ h => (nomatch h)⟩

section Run

variable {s s' : CommitFinalizer}

theorem Descends.of_keeps (hs : Descends s) (hkeep : KeepsCommits s s')
    (hblocks : s'.blocks = s.blocks) : Descends s' :=
  ⟨hblocks ▸ hs.graph, hkeep.2 ▸ hs.commits⟩

theorem Descends.popFinalizedCommits {overflowChecks : Bool}
    {r : List CommittedSubDag × CommitFinalizer} (hs : Descends s)
    (h : popFinalizedCommits overflowChecks s = .ok r) : Descends r.2 := by
  have hgraph : Descending r.2.blocks := by
    unfold CommitFinalizer.popFinalizedCommits at h
    obtain ⟨r', hr', rfl⟩ := Except.bind_pure_eq_ok.1 h
    exact hs.graph.popFinalized hr'
  -- the commits still buffered are the last of those buffered before
  refine ⟨hgraph, fun d hd => hs.commits d ?_⟩
  rw [← (popFinalizedCommits_order h).2]
  exact List.mem_append_right _ hd

theorem Descends.linkBlocksInLastCommit (hs : Descends s) (h : linkBlocksInLastCommit s = .ok s') :
    Descends s' := by
  unfold CommitFinalizer.linkBlocksInLastCommit at h
  split at h
  · cases h
  · rename_i cs hlast
    cases h
    -- the blocks linked are those of the last buffered commit
    have hcs : ∀ b ∈ cs.commit.blocks, FirstAncestorBelow b :=
      hs.commits cs.commit.base (List.mem_map_of_mem (List.mem_of_getLast? hlast))
    refine ⟨Descending.foldl (fun m b hb hm => hm.linkBlock (hcs b ?_) _) hs.graph, hs.commits⟩
    exact (List.perm_insertionSort _ _).mem_iff.1 hb

/-- Every block graph the loop of `append_origin_descendants_from_last_commit` hands to the
walk down first ancestors descends, so each walk has fuel to spare
(`appendOriginDescendant_length_add`). -/
theorem Descends.appendOriginDescendantsFromLastCommit (hs : Descends s)
    (h : appendOriginDescendantsFromLastCommit s = .ok s') : Descends s' := by
  unfold CommitFinalizer.appendOriginDescendantsFromLastCommit at h
  split at h
  · cases h
  · obtain ⟨blocks, hfold, rfl⟩ := Except.bind_pure_eq_ok.1 h
    refine ⟨Except.foldlM_eq_ok_invariant (fun m committed _ m' hm hstep => ?_) hs.graph hfold,
      hs.commits⟩
    dsimp only at hstep
    split at hstep
    · cases hstep
    · split at hstep
      · cases hstep
      · exact hm.appendOriginDescendant hstep

variable (ctx : Context) (certifier : TransactionCertifier.CertifierState)

theorem Descends.indirectFinalizeCommits {fuel : Nat} {r : List CommittedSubDag × CommitFinalizer}
    (hs : Descends s) (h : indirectFinalizeCommits ctx certifier fuel s = .ok r) :
    Descends r.2 := by
  induction fuel generalizing s r with
  | zero => cases h; exact hs
  | succ fuel ih =>
    rcases indirectFinalizeCommits_succ_eq_ok ctx certifier h with rfl | ⟨s₁, popped, h₁, h₂, hr⟩
    · exact hs
    · have hpop := (hs.of_keeps (tryIndirectFinalizeFirstCommit_keeps ctx certifier h₁)
        (tryIndirectFinalizeFirstCommit_blocks ctx certifier h₁)).popFinalizedCommits h₂
      rcases hr with ⟨-, rfl⟩ | ⟨r', hr', rfl⟩
      · exact hpop
      · exact ih (r := r') hpop hr'

theorem Descends.processCommit {d : CommittedSubDag} {r : List CommittedSubDag × CommitFinalizer}
    (hs : Descends s) (hd : ∀ b ∈ d.blocks, FirstAncestorBelow b)
    (h : processCommit ctx certifier s d = .ok r) : Descends r.2 := by
  obtain ⟨cs, s₁, direct, -, hcs, h₁, h₂, hr⟩ := processCommit_eq_ok ctx certifier h
  -- the new commit joins the buffer at its end, with its blocks
  have hbuffer : buffered
      { s with
        lastProcessedCommit := some d.commitIndex
        pendingCommits := s.pendingCommits ++ [cs] } = buffered s ++ [d.base] := by
    simp [buffered, commitState_new_commit hcs]
  have hpush : Descends
      { s with
        lastProcessedCommit := some d.commitIndex
        pendingCommits := s.pendingCommits ++ [cs] } := by
    refine ⟨hs.graph, fun d' hd' => ?_⟩
    rw [hbuffer, List.mem_append, List.mem_singleton] at hd'
    rcases hd' with hd' | rfl
    · exact hs.commits d' hd'
    · exact hd
  have hdirect := (hpush.of_keeps (directFinalizeCommits_keeps ctx certifier h₁)
    (directFinalizeCommits_blocks ctx certifier h₁)).popFinalizedCommits h₂
  rcases hr with ⟨-, rfl⟩ | ⟨s₂, blocks, indirect, -, h₃, h₄, h₅, rfl⟩
  · exact hdirect
  · exact ((hdirect.linkBlocksInLastCommit h₃).appendOriginDescendantsFromLastCommit h₄)
      |>.indirectFinalizeCommits ctx certifier (r := indirect) h₅

end Run

/-- The run lemma: over commits whose blocks have their first ancestors below them, as
verified blocks do (`firstAncestorBelow_of_verified`), every state of a run descends. -/
theorem Descends.processCommits (ctx : Context) {s : CommitFinalizer}
    {inputs : List (TransactionCertifier.CertifierState × CommittedSubDag)}
    {r : List CommittedSubDag × CommitFinalizer} (hs : Descends s)
    (hin : ∀ p ∈ inputs, ∀ b ∈ p.2.blocks, FirstAncestorBelow b)
    (h : processCommits ctx s inputs = .ok r) : Descends r.2 := by
  induction inputs generalizing s r with
  | nil => cases h; exact hs
  | cons input rest ih =>
    obtain ⟨certifier, d⟩ := input
    obtain ⟨r₁, h₁, h⟩ := Except.bind_eq_ok.1 h
    obtain ⟨r₂, h₂, rfl⟩ := Except.bind_pure_eq_ok.1 h
    exact ih (r := r₂) (hs.processCommit ctx certifier (hin _ List.mem_cons_self) h₁)
      (fun p hp => hin p (List.mem_cons_of_mem _ hp)) h₂

end CommitFinalizer

end Rtd
