import Rtd.DagView

/-!
The DAG of all blocks the authorities have created and the views of it a
validator's `DagState` holds: the setting in which the commit rule is safe.

Every block of the DAG passed `verify_block`, its ancestors are in the DAG, and no
two blocks share a reference. A view holds the genesis blocks and a causally
closed part of the other blocks, each once, as the `recent_blocks` map does.
-/

set_option autoImplicit false

namespace Rtd

structure BlockDag (c : Committee) where
  genesis : List Block
  blocks : List Block
  genesis_spec : ∀ g ∈ genesis, g.round = genesisRound ∧ g.ancestors = []
  accepted : ∀ b ∈ blocks,
    SignedBlockVerifier.verifyBlock c (genesis.map Block.reference) b true true = .ok ()
  closed : ∀ b ∈ blocks, ∀ a ∈ b.ancestors, ∃ b' ∈ genesis ++ blocks, b'.reference = a
  references_nodup : ((genesis ++ blocks).map Block.reference).Nodup

namespace BlockDag

variable {c : Committee} (G : BlockDag c)

/-- The whole DAG, read as a view. -/
def view : DagView := ⟨G.genesis, G.blocks⟩

/-- The authorities with two blocks in one slot. -/
def equivocators : Finset Nat :=
  ((G.blocks.filter fun b => G.blocks.any fun b' => b'.slot = b.slot && b' ≠ b).map
    Block.author).toFinset

/-- A view of the DAG: the same genesis blocks, and blocks of the DAG, each once,
whose non-genesis ancestors are in the view. -/
structure IsView (D : DagView) : Prop where
  genesis_eq : D.genesis = G.genesis
  subset : ∀ b ∈ D.blocks, b ∈ G.blocks
  nodup : D.blocks.Nodup
  closed : ∀ b ∈ D.blocks, ∀ a ∈ b.ancestors, a.round ≠ genesisRound →
    ∃ b' ∈ D.blocks, b'.reference = a

variable {G}

theorem verified {b : Block} (hb : b ∈ G.blocks) :
    SignedBlockVerifier.Verified c (G.genesis.map Block.reference) b :=
  SignedBlockVerifier.verifyBlock_ok c _ b (G.accepted b hb)

theorem eq_of_reference_eq {b b' : Block} (hb : b ∈ G.genesis ++ G.blocks)
    (hb' : b' ∈ G.genesis ++ G.blocks) (h : b.reference = b'.reference) : b = b' :=
  List.inj_on_of_nodup_map G.references_nodup hb hb' h

theorem eq_of_not_equivocator {b b' : Block} (hb : b ∈ G.blocks) (hb' : b' ∈ G.blocks)
    (hauthor : b.author = b'.author) (hround : b.round = b'.round)
    (hhonest : b.author ∉ G.equivocators) : b = b' := by
  by_contra hne
  apply hhonest
  simp only [equivocators, List.mem_toFinset, List.mem_map, List.mem_filter, List.any_eq_true,
    Bool.and_eq_true, decide_eq_true_eq]
  exact ⟨b, ⟨hb, b', hb', by simp [Block.slot, hauthor, hround], Ne.symm hne⟩, rfl⟩

theorem mem_of_getBlock {D : DagView} (hgen : D.genesis = G.genesis)
    (hsub : ∀ b ∈ D.blocks, b ∈ G.blocks) {a : BlockRef} {b : Block}
    (h : D.getBlock a = some b) : b ∈ G.genesis ++ G.blocks := by
  rcases (DagView.getBlock_spec h).2.2 with hb | hb
  · exact List.mem_append_right _ (hsub b hb)
  · exact List.mem_append_left _ (hgen ▸ hb)

theorem find_reference {l : List Block} {b : Block} (hb : b ∈ l)
    (hinj : ∀ b' ∈ l, b'.reference = b.reference → b' = b) :
    l.find? (fun x => x.reference = b.reference) = some b := by
  cases h : l.find? (fun x => x.reference = b.reference) with
  | some b' =>
    have hk : b'.reference = b.reference := by simpa using List.find?_some h
    rw [hinj b' (List.mem_of_find?_eq_some h) hk]
  | none =>
    simp only [List.find?_eq_none, decide_eq_true_eq] at h
    exact absurd rfl (h b hb)

theorem getBlock_view {b : Block} (hb : b ∈ G.genesis ++ G.blocks) :
    G.view.getBlock b.reference = some b := by
  have hinj : ∀ b' ∈ G.genesis ++ G.blocks, b'.reference = b.reference → b' = b :=
    fun b' hb' h => eq_of_reference_eq hb' hb h
  unfold DagView.getBlock view
  split
  · rename_i hgen
    rcases List.mem_append.1 hb with hg | hg
    · exact find_reference hg fun b' hb' => hinj b' (List.mem_append_left _ hb')
    · exact absurd hgen (by have := (verified hg).round_pos; simp [genesisRound]; omega)
  · rename_i hgen
    rcases List.mem_append.1 hb with hg | hg
    · exact absurd (G.genesis_spec b hg).1 hgen
    · exact find_reference hg fun b' hb' => hinj b' (List.mem_append_right _ hb')

theorem getBlock_view_of_getBlock {D : DagView} (hgen : D.genesis = G.genesis)
    (hsub : ∀ b ∈ D.blocks, b ∈ G.blocks) {a : BlockRef} {b : Block}
    (h : D.getBlock a = some b) : G.view.getBlock a = some b := by
  rw [← (DagView.getBlock_spec h).1]
  exact getBlock_view (mem_of_getBlock hgen hsub h)

theorem isView_view : G.IsView G.view where
  genesis_eq := rfl
  subset := fun _ hb => hb
  nodup := by
    have := G.references_nodup
    rw [List.map_append] at this
    exact (List.nodup_append.1 this).2.1.of_map _
  closed := fun b hb a ha hne => by
    obtain ⟨b', hb', href⟩ := G.closed b hb a ha
    rcases List.mem_append.1 hb' with hg | hg
    · exact absurd (href ▸ (G.genesis_spec b' hg).1) hne
    · exact ⟨b', hg, href⟩

/-! ### Quorums of blocks -/

/-- Every authority of `S` has a block of the DAG with property `P`. -/
def Witnessed (G : BlockDag c) (P : Block → Prop) (S : Finset Nat) : Prop :=
  ∀ H ∈ S, ∃ b ∈ G.blocks, b.author = H ∧ P b

/-- Any two quorums share an authority that does not equivocate. -/
def QuorumsMeet (G : BlockDag c) : Prop :=
  ∀ S S' : Finset Nat, c.IsQuorum S → c.IsQuorum S' → ∃ H ∈ S ∩ S', H ∉ G.equivocators

/-- Two properties of blocks of one round, each witnessed by a quorum, hold of one
block: the authority the quorums share has only one block in that round. -/
theorem exists_common_block (hq : G.QuorumsMeet) {P P' : Block → Prop} {S S' : Finset Nat}
    {k : Nat} (hS : c.IsQuorum S) (hS' : c.IsQuorum S') (hw : G.Witnessed P S)
    (hw' : G.Witnessed P' S') (hk : ∀ b, P b → b.round = k) (hk' : ∀ b, P' b → b.round = k) :
    ∃ b ∈ G.blocks, P b ∧ P' b := by
  obtain ⟨H, hH, hhonest⟩ := hq S S' hS hS'
  obtain ⟨b, hb, hbH, hPb⟩ := hw H (Finset.mem_inter.1 hH).1
  obtain ⟨b', hb', hb'H, hPb'⟩ := hw' H (Finset.mem_inter.1 hH).2
  have heq : b = b' := G.eq_of_not_equivocator hb hb' (hbH.trans hb'H.symm)
    ((hk b hPb).trans (hk' b' hPb').symm) (hbH ▸ hhonest)
  subst heq
  exact ⟨b, hb, hPb, hPb'⟩

/-- For a committee built by `Committee::new`, quorums meet outside the
equivocators while these hold less than the validity threshold, that is at most
`f` of the stake. -/
theorem quorumsMeet_of_new {epoch : Nat} {authorities : List Authority}
    (hc : Committee.new epoch authorities = some c)
    (hfit : (authorities.map (fun a => a.stake.toNat)).sum < 2 ^ 64)
    (hequiv : c.stakeOf G.equivocators < c.validityThreshold.toNat) : G.QuorumsMeet := by
  intro S S' hS hS'
  have hval := (quorums_intersect hc hfit hS.1 hS'.1).1 hS.2 hS'.2
  simp only [Committee.reachedValidity, decide_eq_true_eq] at hval
  exact Weight.exists_mem_not_mem_of_lt c.stake (by unfold Committee.stakeOf at hequiv hval; omega)

/-- The parents of a block above round 1 are a quorum of blocks of the DAG. -/
theorem parents_witnessed {A : Block} (hA : A ∈ G.blocks) (hAr : 1 < A.round) :
    ∃ S, c.IsQuorum S ∧
      G.Witnessed (fun P => P.reference ∈ A.ancestors ∧ P.round = A.round - 1) S := by
  have hver := BlockDag.verified hA
  refine ⟨SignedBlockVerifier.parentAuthors A, ⟨fun H hH => ?_, hver.parents_quorum⟩,
    fun H hH => ?_⟩ <;>
  · obtain ⟨p, hp, rfl⟩ := List.mem_map.1 (List.mem_toFinset.1 hH)
    obtain ⟨hpA, hpr⟩ := List.mem_filter.1 hp
    simp only [decide_eq_true_eq] at hpr
    first
    | exact Finset.mem_range.2 (hver.ancestor_author_valid p hpA)
    | obtain ⟨P, hPG, rfl⟩ := G.closed A hA p hpA
      rcases List.mem_append.1 hPG with hPG | hPG
      · have := (G.genesis_spec P hPG).1
        simp [genesisRound] at this hpr
        omega
      · exact ⟨P, hPG, rfl, hpA, hpr⟩

namespace IsView

variable {D : DagView} (hD : G.IsView D)
include hD

theorem mem_dag {b : Block} (hb : D.Mem b) : b ∈ G.genesis ++ G.blocks := by
  rcases hb with hb | hb
  · exact List.mem_append_right _ (hD.subset b hb)
  · exact List.mem_append_left _ (hD.genesis_eq ▸ hb)

theorem getBlock_of_mem {b : Block} (hb : D.Mem b) : D.getBlock b.reference = some b := by
  have hinj : ∀ b', D.Mem b' → b'.reference = b.reference → b' = b :=
    fun b' hb' h => BlockDag.eq_of_reference_eq (hD.mem_dag hb') (hD.mem_dag hb) h
  unfold DagView.getBlock
  split
  · rename_i hgen
    rcases hb with hb | hb
    · exact absurd hgen (by have := (verified (hD.subset b hb)).round_pos; simp [genesisRound]; omega)
    · exact find_reference hb fun b' hb' => hinj b' (.inr hb')
  · rename_i hgen
    rcases hb with hb | hb
    · exact find_reference hb fun b' hb' => hinj b' (.inl hb')
    · exact absurd (G.genesis_spec b (hD.genesis_eq ▸ hb)).1 hgen

theorem mem_of_getBlock_view {a : BlockRef} {b : Block} (h : D.getBlock a = some b) :
    b ∈ G.genesis ++ G.blocks :=
  mem_of_getBlock hD.genesis_eq hD.subset h

theorem getBlock_dag {a : BlockRef} {b : Block} (h : D.getBlock a = some b) :
    G.view.getBlock a = some b :=
  getBlock_view_of_getBlock hD.genesis_eq hD.subset h

theorem getBlock_ancestor {b : Block} (hb : b ∈ D.blocks) {a : BlockRef}
    (ha : a ∈ b.ancestors) : ∃ b', D.getBlock a = some b' := by
  by_cases hgen : a.round = genesisRound
  · obtain ⟨g, hg, rfl⟩ : ∃ g ∈ G.genesis, g.reference = a := by
      have := (verified (hD.subset b hb)).genesis_ancestor a ha hgen
      simpa using this
    exact ⟨g, hD.getBlock_of_mem (.inr (hD.genesis_eq ▸ hg))⟩
  · obtain ⟨b', hb', rfl⟩ := hD.closed b hb a ha hgen
    exact ⟨b', hD.getBlock_of_mem (.inl hb')⟩

theorem getBlock_ancestor_eq {b : Block} (hb : b ∈ D.blocks) {a : BlockRef}
    (ha : a ∈ b.ancestors) : D.getBlock a = G.view.getBlock a := by
  obtain ⟨b', hb'⟩ := hD.getBlock_ancestor hb ha
  rw [hb', hD.getBlock_dag hb']

theorem mem_of_ancestor {A P : Block} (hA : A ∈ D.blocks) (hP : P ∈ G.blocks)
    (ha : P.reference ∈ A.ancestors) : P ∈ D.blocks ∧ D.getBlock P.reference = some P := by
  obtain ⟨P', hP'⟩ := hD.getBlock_ancestor hA ha
  have heq : P' = P := BlockDag.eq_of_reference_eq (hD.mem_of_getBlock_view hP')
    (List.mem_append_right _ hP) (DagView.getBlock_spec hP').1
  subst heq
  have hround : P'.reference.round ≠ genesisRound := by
    have := (verified hP).round_pos
    simp [genesisRound]
    omega
  exact ⟨(DagView.getBlock_spec hP').2.1 hround, hP'⟩

theorem wellFormed : D.WellFormed where
  genesis_ancestors := fun g hg => (G.genesis_spec g (hD.genesis_eq ▸ hg)).2
  ancestor_round_lt := fun b hb => (verified (hD.subset b hb)).ancestor_round_lt
  ancestor_present := fun _ hb _ ha _ => hD.getBlock_ancestor hb ha

theorem eq_of_reference_eq {b b' : Block} (hb : D.Mem b) (hb' : D.Mem b')
    (h : b.reference = b'.reference) : b = b' :=
  BlockDag.eq_of_reference_eq (hD.mem_dag hb) (hD.mem_dag hb') h

end IsView

end BlockDag

end Rtd
