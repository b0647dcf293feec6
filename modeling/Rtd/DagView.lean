import Rtd.Block
import Mathlib

/-!
The read side of `DagState` (`consensus/core/src/dag_state.rs`) that the
committer uses: `get_block`, the blocks at a slot or a round, the highest
accepted round and `ancestors_at_round`.

A view holds the recent blocks in `BlockRef` order and the genesis blocks;
every block is in memory, so the store behind the cache is not consulted.
-/

set_option autoImplicit false

namespace Rtd

structure DagView where
  genesis : List Block
  blocks : List Block
  deriving Repr

namespace DagView

variable (v : DagView)

/-- `DagState::get_block`: genesis references are looked up among the genesis blocks. -/
def getBlock (r : BlockRef) : Option Block :=
  if r.round = genesisRound then v.genesis.find? (fun b => b.reference = r)
  else v.blocks.find? (fun b => b.reference = r)

/-- `DagState::get_uncommitted_blocks_at_slot`. -/
def getUncommittedBlocksAtSlot (slot : Slot) : List Block :=
  v.blocks.filter (fun b => b.slot = slot)

/-- `DagState::get_uncommitted_blocks_at_round`. -/
def getUncommittedBlocksAtRound (round : Nat) : List Block :=
  v.blocks.filter (fun b => b.round = round)

@[simp] theorem mem_getUncommittedBlocksAtSlot {slot : Slot} {b : Block} :
    b ∈ v.getUncommittedBlocksAtSlot slot ↔ b ∈ v.blocks ∧ b.slot = slot := by
  simp [getUncommittedBlocksAtSlot]

@[simp] theorem mem_getUncommittedBlocksAtRound {round : Nat} {b : Block} :
    b ∈ v.getUncommittedBlocksAtRound round ↔ b ∈ v.blocks ∧ b.round = round := by
  simp [getUncommittedBlocksAtRound]

/-- `DagState::highest_accepted_round`: the highest round of an accepted block. -/
def highestAcceptedRound : Nat := v.blocks.foldl (fun m b => max m b.round) 0

/-- The loop of `ancestors_at_round`: pop the highest reference while it is above
`earlierRound` and add its block's ancestors. A missing block panics in the
source; the loop stops there. -/
def ancestorsAtRoundLoop (earlierRound : Nat) : Nat → Finset BlockRef → Finset BlockRef
  | 0, linked => linked
  | fuel + 1, linked =>
    match linked.max with
    | none => linked
    | some m =>
      if m.round ≤ earlierRound then linked
      else
        match v.getBlock m with
        | none => linked
        | some b => ancestorsAtRoundLoop earlierRound fuel (linked.erase m ∪ b.ancestors.toFinset)

/-- `DagState::ancestors_at_round`. Every iteration pops a distinct block of the
view, so one more iteration than there are blocks completes the traversal. -/
def ancestorsAtRound (later : Block) (earlierRound : Nat) : List Block :=
  let linked := v.ancestorsAtRoundLoop earlierRound (v.blocks.length + 1)
    later.ancestors.toFinset
  ((linked.filter (fun r => earlierRound ≤ r.round)).sort (· ≤ ·)).filterMap v.getBlock

/-! ### Reachability and `ancestors_at_round` -/

/-- A block of the view, genesis or not. -/
def Mem (b : Block) : Prop := b ∈ v.blocks ∨ b ∈ v.genesis

/-- `b` reaches the reference `a` through ancestor links of the view. -/
inductive Reaches : Block → BlockRef → Prop
  | ancestor {b : Block} {a : BlockRef} : a ∈ b.ancestors → Reaches b a
  | step {b b' : Block} {a a' : BlockRef} :
      a ∈ b.ancestors → v.getBlock a = some b' → Reaches b' a' → Reaches b a'

/-- What the traversals of the view rely on: genesis blocks have no ancestors,
ancestors are in lower rounds, and the block behind every non-genesis ancestor is
present. -/
structure WellFormed : Prop where
  genesis_ancestors : ∀ g ∈ v.genesis, g.ancestors = []
  ancestor_round_lt : ∀ b ∈ v.blocks, ∀ a ∈ b.ancestors, a.round < b.round
  ancestor_present : ∀ b ∈ v.blocks, ∀ a ∈ b.ancestors, a.round ≠ genesisRound →
    ∃ b', v.getBlock a = some b'

variable {v}

theorem getBlock_spec {a : BlockRef} {b : Block} (h : v.getBlock a = some b) :
    b.reference = a ∧ (a.round ≠ genesisRound → b ∈ v.blocks) ∧ v.Mem b := by
  unfold getBlock at h
  split at h
  · rename_i hgen
    have hb := List.find?_some h
    exact ⟨by simpa using hb, fun hne => absurd hgen hne, .inr (List.mem_of_find?_eq_some h)⟩
  · have hb := List.find?_some h
    exact ⟨by simpa using hb, fun _ => List.mem_of_find?_eq_some h,
      .inl (List.mem_of_find?_eq_some h)⟩

theorem getBlock_round {a : BlockRef} {b : Block} (h : v.getBlock a = some b) :
    b.round = a.round := by
  rw [← (getBlock_spec h).1, Block.reference_round]

theorem Reaches.tail {b b' : Block} {a a' : BlockRef} (h : v.Reaches b a)
    (hget : v.getBlock a = some b') (ha' : a' ∈ b'.ancestors) : v.Reaches b a' := by
  induction h with
  | ancestor ha => exact .step ha hget (.ancestor ha')
  | step ha hget' _ ih => exact .step ha hget' (ih hget)

/-- The invariant of the `ancestors_at_round` loop: everything in `linked` is
reachable, and every reachable reference of the target round is in `linked` or
below a reference of `linked` above the target round. -/
structure LoopInv (v : DagView) (later : Block) (earlierRound : Nat)
    (linked : Finset BlockRef) : Prop where
  sound : ∀ x ∈ linked, v.Reaches later x
  complete : ∀ y, v.Reaches later y → y.round = earlierRound →
    ∃ x ∈ linked, x = y ∨ (earlierRound < x.round ∧
      ∃ bx, v.getBlock x = some bx ∧ v.Reaches bx y)

variable {later : Block} {earlierRound : Nat}

/-- When the loop stops, nothing in `linked` is above the target round, and then
`linked` holds every reachable reference of the target round. -/
theorem LoopInv.mem_of_done {linked : Finset BlockRef} (hinv : LoopInv v later earlierRound linked)
    (hdone : ∀ x ∈ linked, x.round ≤ earlierRound) {y : BlockRef} (hy : v.Reaches later y)
    (hyr : y.round = earlierRound) : y ∈ linked := by
  obtain ⟨x, hx, rfl | ⟨hlt, -⟩⟩ := hinv.complete y hy hyr
  · exact hx
  · exact absurd (hdone x hx) (by omega)

/-- The references of the view's blocks below `bound` and above the target round:
every iteration lowers the bound past one of them. -/
def loopMeasure (v : DagView) (earlierRound : Nat) (bound : BlockRef) : Nat :=
  ((v.blocks.map Block.reference).toFinset.filter
    (fun x => x < bound ∧ earlierRound < x.round)).card

theorem loopMeasure_lt {m bound : BlockRef} {b : Block} (hget : v.getBlock m = some b)
    (hround : earlierRound < m.round) (hlt : m < bound) :
    loopMeasure v earlierRound m < loopMeasure v earlierRound bound := by
  have hmem : m ∈ (v.blocks.map Block.reference).toFinset := by
    have hb := (getBlock_spec hget).2.1 (by unfold genesisRound; omega)
    exact List.mem_toFinset.2 (List.mem_map.2 ⟨b, hb, (getBlock_spec hget).1⟩)
  apply Finset.card_lt_card
  refine Finset.ssubset_iff_of_subset (fun x hx => ?_) |>.2 ⟨m, ?_, ?_⟩
  · simp only [Finset.mem_filter] at hx ⊢
    exact ⟨hx.1, hx.2.1.trans hlt, hx.2.2⟩
  · exact Finset.mem_filter.2 ⟨hmem, hlt, hround⟩
  · simp

section WellFormed

variable (hw : v.WellFormed)
include hw

theorem ancestor_round_lt_of_mem {b : Block} (hb : v.Mem b) {a : BlockRef}
    (ha : a ∈ b.ancestors) : a.round < b.round := by
  rcases hb with hb | hb
  · exact hw.ancestor_round_lt b hb a ha
  · simp [hw.genesis_ancestors b hb] at ha

theorem Reaches.round_lt {b : Block} {a : BlockRef} (h : v.Reaches b a) (hb : v.Mem b) :
    a.round < b.round := by
  induction h with
  | ancestor ha => exact ancestor_round_lt_of_mem hw hb ha
  | step ha hget _ ih =>
    have hlt := ancestor_round_lt_of_mem hw hb ha
    have hround := getBlock_round hget
    have := ih (getBlock_spec hget).2.2
    omega

theorem Reaches.present {b : Block} {a : BlockRef} (h : v.Reaches b a) (hb : v.Mem b)
    (ha : a.round ≠ genesisRound) : ∃ b', v.getBlock a = some b' := by
  induction h with
  | ancestor hmem =>
    rcases hb with hb | hb
    · exact hw.ancestor_present _ hb _ hmem ha
    · simp [hw.genesis_ancestors _ hb] at hmem
  | step _ hget _ ih => exact ih (getBlock_spec hget).2.2 ha

theorem loopInv_init :
    LoopInv v later earlierRound later.ancestors.toFinset := by
  refine ⟨fun x hx => .ancestor (List.mem_toFinset.1 hx), fun y hy hyr => ?_⟩
  cases hy with
  | ancestor hmem => exact ⟨y, List.mem_toFinset.2 hmem, .inl rfl⟩
  | step hmem hget hreach =>
    rename_i b' a
    have hlt := hreach.round_lt hw (getBlock_spec hget).2.2
    have hround := getBlock_round hget
    exact ⟨a, List.mem_toFinset.2 hmem, .inr ⟨by omega, b', hget, hreach⟩⟩

/-- One iteration: pop the highest reference `m`, above the target round, and add
the ancestors of its block. -/
theorem loopInv_step {linked : Finset BlockRef} {m : BlockRef} {b : Block}
    (hinv : LoopInv v later earlierRound linked) (hm : m ∈ linked)
    (hround : earlierRound < m.round) (hget : v.getBlock m = some b) :
    LoopInv v later earlierRound (linked.erase m ∪ b.ancestors.toFinset) := by
  constructor
  · intro x hx
    rcases Finset.mem_union.1 hx with hx | hx
    · exact hinv.sound x (Finset.mem_of_mem_erase hx)
    · exact (hinv.sound m hm).tail hget (List.mem_toFinset.1 hx)
  · intro y hy hyr
    obtain ⟨x, hx, hxy⟩ := hinv.complete y hy hyr
    by_cases hxm : x = m
    · subst hxm
      rcases hxy with rfl | ⟨-, bx, hbx, hreach⟩
      · omega
      -- the block behind `m` is `b`, whose ancestors now stand in for `m`
      rw [hget, Option.some.injEq] at hbx
      subst hbx
      cases hreach with
      | ancestor hmem => exact ⟨y, Finset.mem_union_right _ (List.mem_toFinset.2 hmem), .inl rfl⟩
      | step hmem hget' hreach' =>
        rename_i b'' a
        have hlt := hreach'.round_lt hw (getBlock_spec hget').2.2
        have hround' := getBlock_round hget'
        exact ⟨a, Finset.mem_union_right _ (List.mem_toFinset.2 hmem),
          .inr ⟨by omega, b'', hget', hreach'⟩⟩
    · exact ⟨x, Finset.mem_union_left _ (Finset.mem_erase.2 ⟨hxm, hx⟩), hxy⟩

/-- Enough fuel: with more iterations than `loopMeasure` counts, the loop ends
with nothing above the target round, and the invariant holds. -/
theorem loop_done (hlater : v.Mem later) :
    ∀ (fuel : Nat) (linked : Finset BlockRef) (bound : BlockRef),
      loopMeasure v earlierRound bound < fuel → LoopInv v later earlierRound linked →
      (∀ x ∈ linked, x < bound) →
      LoopInv v later earlierRound (v.ancestorsAtRoundLoop earlierRound fuel linked) ∧
      ∀ x ∈ v.ancestorsAtRoundLoop earlierRound fuel linked, x.round ≤ earlierRound := by
  intro fuel
  induction fuel with
  | zero => intro _ _ h; omega
  | succ fuel ih =>
    intro linked bound hfuel hinv hbound
    unfold ancestorsAtRoundLoop
    split
    · rename_i hmax
      refine ⟨hinv, fun x hx => ?_⟩
      simp [Finset.max_eq_bot.1 hmax] at hx
    · rename_i m hmax
      have hm := Finset.mem_of_max hmax
      split
      · rename_i hle
        exact ⟨hinv, fun x hx =>
          (BlockRef.round_le_of_le (Finset.le_max_of_eq hx hmax)).trans hle⟩
      · rename_i hgt
        have hgt : earlierRound < m.round := by omega
        obtain ⟨b, hb⟩ := (hinv.sound m hm).present hw hlater (by unfold genesisRound; omega)
        rw [hb]
        have hbm : b.round = m.round := getBlock_round hb
        refine ih _ m ?_ (loopInv_step hw hinv hm hgt hb) ?_
        · have := loopMeasure_lt hb hgt (hbound m hm)
          omega
        · intro x hx
          rcases Finset.mem_union.1 hx with hx | hx
          · obtain ⟨hxm, hx⟩ := Finset.mem_erase.1 hx
            exact lt_of_le_of_ne (Finset.le_max_of_eq hx hmax) hxm
          · apply BlockRef.lt_of_round_lt
            have := ancestor_round_lt_of_mem hw (getBlock_spec hb).2.2 (List.mem_toFinset.1 hx)
            omega

/-- The traversal from the ancestors of a block of the view ends by its own test, with
nothing above the target round left, and keeps the invariant. -/
theorem ancestorsAtRoundLoop_done (hlater : later ∈ v.blocks) :
    LoopInv v later earlierRound
        (v.ancestorsAtRoundLoop earlierRound (v.blocks.length + 1) later.ancestors.toFinset) ∧
      ∀ x ∈ v.ancestorsAtRoundLoop earlierRound (v.blocks.length + 1) later.ancestors.toFinset,
        x.round ≤ earlierRound := by
  have hmeasure : loopMeasure v earlierRound later.reference < v.blocks.length + 1 := by
    have h1 := Finset.card_filter_le (v.blocks.map Block.reference).toFinset
      (fun x => x < later.reference ∧ earlierRound < x.round)
    have h2 := List.toFinset_card_le (v.blocks.map Block.reference)
    rw [List.length_map] at h2
    unfold loopMeasure
    omega
  have hbound : ∀ x ∈ later.ancestors.toFinset, x < later.reference := fun x hx =>
    BlockRef.lt_of_round_lt (hw.ancestor_round_lt later hlater x (List.mem_toFinset.1 hx))
  exact loop_done hw (.inl hlater) _ _ _ hmeasure (loopInv_init hw) hbound

/-- `ancestors_at_round` returns exactly the blocks of the target round that the
later block reaches. -/
theorem mem_ancestorsAtRound (hlater : later ∈ v.blocks) {x : Block} :
    x ∈ v.ancestorsAtRound later earlierRound ↔
      ∃ y, v.Reaches later y ∧ y.round = earlierRound ∧ v.getBlock y = some x := by
  obtain ⟨hinv, hdone⟩ := ancestorsAtRoundLoop_done hw hlater
  simp only [ancestorsAtRound, List.mem_filterMap, Finset.mem_sort, Finset.mem_filter]
  constructor
  · rintro ⟨y, ⟨hy, hyr⟩, hget⟩
    exact ⟨y, hinv.sound y hy, le_antisymm (hdone y hy) hyr, hget⟩
  · rintro ⟨y, hy, hyr, hget⟩
    exact ⟨y, ⟨hinv.mem_of_done hdone hy hyr, hyr.ge⟩, hget⟩

/-- `ancestors_at_round` returns every block of the target round that the later block
reaches, each once and nothing else, and its loop ends by its own test: no reference
above the target round is left. -/
theorem ancestorsAtRound_eq_reachable (hlater : later ∈ v.blocks) :
    (v.ancestorsAtRound later earlierRound).Nodup ∧
      (∀ x, x ∈ v.ancestorsAtRound later earlierRound ↔
        ∃ y, v.Reaches later y ∧ y.round = earlierRound ∧ v.getBlock y = some x) ∧
      ∀ x ∈ v.ancestorsAtRoundLoop earlierRound (v.blocks.length + 1) later.ancestors.toFinset,
        x.round ≤ earlierRound := by
  refine ⟨?_, fun x => mem_ancestorsAtRound hw hlater, (ancestorsAtRoundLoop_done hw hlater).2⟩
  -- distinct references give distinct blocks: a block found for a reference carries it
  refine List.Nodup.filterMap (fun a a' b hb hb' => ?_) (Finset.sort_nodup _ _)
  rw [← (getBlock_spec (Option.mem_def.1 hb)).1, (getBlock_spec (Option.mem_def.1 hb')).1]

end WellFormed

end DagView

/-! A block of round 2 that reaches both genesis blocks through one block of round 1. -/

namespace TwoRounds

def block (round author : Nat) (ancestors : List BlockRef) : Block :=
  ⟨0, round, author, 0, 0, ancestors⟩

def ref (round author : Nat) : BlockRef := ⟨round, author, 0⟩

def later : Block := block 2 0 [ref 1 0]

def view : DagView :=
  ⟨[block 0 0 [], block 0 1 []], [block 1 0 [ref 0 0, ref 0 1], block 1 1 [ref 0 1], later]⟩

theorem wellFormed_view : view.WellFormed where
  genesis_ancestors := by decide
  ancestor_round_lt := by decide
  ancestor_present := by
    intro b hb a ha _
    simp only [view, later, block, List.mem_cons, List.not_mem_nil, or_false] at hb
    rcases hb with rfl | rfl | rfl <;> simp only [List.mem_cons, List.not_mem_nil,
      or_false] at ha <;> rcases ha with rfl | rfl <;> exact ⟨_, rfl⟩

theorem ancestorsAtRound_eq_reachable_twoRounds :
    view.WellFormed ∧ later ∈ view.blocks ∧
      ((view.ancestorsAtRound later 0).Nodup ∧
        (∀ x, x ∈ view.ancestorsAtRound later 0 ↔
          ∃ y, view.Reaches later y ∧ y.round = 0 ∧ view.getBlock y = some x) ∧
        ∀ x ∈ view.ancestorsAtRoundLoop 0 (view.blocks.length + 1) later.ancestors.toFinset,
          x.round ≤ 0) :=
  ⟨wellFormed_view, by decide, DagView.ancestorsAtRound_eq_reachable wellFormed_view (by decide)⟩

end TwoRounds

end Rtd
