import Rtd.CausalOrder
import Mathlib

/-!
The contents of a checkpoint (crates/rtd-core/src/checkpoints/mod.rs):
`CheckpointBuilder::complete_checkpoint_effects` closes the roots under their
dependencies executed in the current epoch, round by round, skipping what the
checkpoint already holds, what a built checkpoint holds, and what an earlier epoch
executed; `resolve_checkpoint_transactions` then sorts the result causally.

The hash sets `seen` and `pending` are a finset and a list in insertion order; the order
in which a hash set of one round is read back is any permutation `hashOrder round` of
it. The loop over rounds runs on the number of transactions executed in the epoch as
fuel, and the theorems show that it is enough.
-/

set_option autoImplicit false

namespace Rtd.Checkpoints

open Toposort

/-- What checkpoint building reads of the epoch store. -/
structure EpochStore (ι : Type) where
  epoch : Nat
  /-- The transaction is in a checkpoint built already. -/
  builderIncludedTransactionsInCheckpoint : ι → Bool
  /-- The transactions with an effects signature: those executed in the current epoch. -/
  transactionsExecutedInCurEpoch : List ι

structure CheckpointBuilder (ι κ : Type) where
  epochStore : EpochStore ι
  /-- multi_get_executed_effects, one digest at a time. -/
  effectsStore : ι → Option (TransactionEffects ι κ)

namespace CheckpointBuilder

variable {ι κ : Type} [LinearOrder ι] (builder : CheckpointBuilder ι κ)

/-- Membership of a digest in a list is decided by the equality of the order; the
definitions below take its lawfulness from this lemma by name. -/
local instance lawfulBEq_of_linearOrder : LawfulBEq ι := inferInstance

/-- The loop over the dependencies of a root: one executed in the current epoch and not
seen yet is marked seen and becomes pending. -/
def addDependencies : List ι → Finset ι × List ι → Finset ι × List ι
  | [], acc => acc
  | dependency :: dependencies, (seen, pending) =>
    if dependency ∉ builder.epochStore.transactionsExecutedInCurEpoch then
      addDependencies dependencies (seen, pending)
    else if dependency ∈ seen then addDependencies dependencies (seen, pending)
    else addDependencies dependencies (insert dependency seen, pending ++ [dependency])

/-- The loop over the roots of one round. -/
def processRoots (existing : Finset ι) :
    List (TransactionEffects ι κ) → Finset ι × List ι × List (TransactionEffects ι κ) →
      Finset ι × List ι × List (TransactionEffects ι κ)
  | [], acc => acc
  | effect :: roots, (seen, pending, results) =>
    let digest := effect.transactionDigest
    let seen := insert digest seen
    if digest ∈ existing then processRoots existing roots (seen, pending, results)
    else if builder.epochStore.builderIncludedTransactionsInCheckpoint digest = true ∨
        effect.executedEpoch < builder.epochStore.epoch then
      processRoots existing roots (seen, pending, results)
    else
      let (seen, pending) := builder.addDependencies effect.dependencies (seen, pending)
      processRoots existing roots (seen, pending, results ++ [effect])

/-- The effects of the pending transactions; one that is missing panics. -/
def multiGetExecutedEffects : List ι → Except (Panic ι) (List (TransactionEffects ι κ))
  | [] => .ok []
  | digest :: digests =>
    match builder.effectsStore digest with
    | some effects => (effects :: ·) <$> multiGetExecutedEffects digests
    | none => .error (.canNotFindEffect digest)

/-- The rounds of the loop: process the roots, stop when nothing is pending, and else
take the pending transactions' effects as the next roots. -/
def completeLoop (hashOrder : Nat → List ι → List ι) (existing : Finset ι) :
    Nat → Nat → List (TransactionEffects ι κ) → Finset ι → List (TransactionEffects ι κ) →
      Except (Panic ι) (List (TransactionEffects ι κ))
  | fuel, round, roots, seen, results =>
    let (seen, pending, results) := builder.processRoots existing roots (seen, [], results)
    if pending = [] then .ok results
    else
      match fuel with
      | 0 => .error .outOfFuel
      | fuel + 1 => do
        let roots ← builder.multiGetExecutedEffects (hashOrder round pending)
        completeLoop hashOrder existing fuel (round + 1) roots seen results

/-- The effects to add to the checkpoint for the given roots, and `existing` extended by
their digests. -/
def completeCheckpointEffects (hashOrder : Nat → List ι → List ι)
    (roots : List (TransactionEffects ι κ)) (existing : Finset ι) :
    Except (Panic ι) (List (TransactionEffects ι κ) × Finset ι) := do
  let results ← builder.completeLoop hashOrder existing
    builder.epochStore.transactionsExecutedInCurEpoch.length 0 roots ∅ []
  pure (results, existing ∪ (results.map (·.transactionDigest)).toFinset)

/-- A transaction the checkpoint takes: it is not in the checkpoint being built, not in a
built checkpoint, and not executed in an earlier epoch. -/
def Qualifies (existing : Finset ι) (e : TransactionEffects ι κ) : Prop :=
  e.transactionDigest ∉ existing ∧
    builder.epochStore.builderIncludedTransactionsInCheckpoint e.transactionDigest = false ∧
    builder.epochStore.epoch ≤ e.executedEpoch

/-- The transactions reached from the roots through dependencies executed in the current
epoch, every one on the way qualifying. -/
inductive Collected (existing : Finset ι) (roots : List (TransactionEffects ι κ)) :
    TransactionEffects ι κ → Prop
  | root {e : TransactionEffects ι κ} : e ∈ roots → builder.Qualifies existing e →
      Collected existing roots e
  | dependency {e e' : TransactionEffects ι κ} {d : ι} : Collected existing roots e →
      d ∈ e.dependencies → d ∈ builder.epochStore.transactionsExecutedInCurEpoch →
      builder.effectsStore d = some e' → builder.Qualifies existing e' → Collected existing roots e'

/-- `x` depends on `y` among the executed transactions: a dependency of `x`'s effects, or
a reader of a consensus object version `x` overwrote. -/
def DependsOn (x y : ι) : Prop :=
  ∃ ex ey, builder.effectsStore x = some ex ∧ builder.effectsStore y = some ey ∧
    (y ∈ ex.dependencies ∨ ∃ key, ex.Overwrites key ∧ ey.Reads key)

/-! ### One round -/

/-- What the loop over a root's dependencies does: every executed dependency ends up seen,
and what it adds to `seen` and to `pending` are the same new dependencies, executed and
not seen before. -/
theorem addDependencies_spec (deps : List ι) (seen : Finset ι) (pending : List ι) :
    seen ⊆ (builder.addDependencies deps (seen, pending)).1 ∧
    (∀ d ∈ deps, d ∈ builder.epochStore.transactionsExecutedInCurEpoch →
      d ∈ (builder.addDependencies deps (seen, pending)).1) ∧
    ∃ new, (builder.addDependencies deps (seen, pending)).2 = pending ++ new ∧
      (∀ d ∈ new, d ∈ deps ∧ d ∈ builder.epochStore.transactionsExecutedInCurEpoch ∧ d ∉ seen) ∧
      ∀ d ∈ (builder.addDependencies deps (seen, pending)).1, d ∈ seen ∨ d ∈ new := by
  induction deps generalizing seen pending with
  | nil => exact ⟨le_rfl, by simp, [], by simp [addDependencies]⟩
  | cons dep deps ih =>
    by_cases hnew : dep ∈ builder.epochStore.transactionsExecutedInCurEpoch ∧ dep ∉ seen
    · have heq : builder.addDependencies (dep :: deps) (seen, pending) =
          builder.addDependencies deps (insert dep seen, pending ++ [dep]) := by
        simp [addDependencies, hnew.1, hnew.2]
      rw [heq]
      obtain ⟨hsub, hall, new, hp, hnew', hmem⟩ := ih (insert dep seen) (pending ++ [dep])
      refine ⟨(Finset.subset_insert dep seen).trans hsub, fun d hd he => ?_, dep :: new,
        by simp [hp], fun d hd => ?_, fun d hd => ?_⟩
      · rcases List.mem_cons.mp hd with rfl | hd
        · exact hsub (Finset.mem_insert_self _ _)
        · exact hall d hd he
      · rcases List.mem_cons.mp hd with rfl | hd
        · exact ⟨List.mem_cons_self, hnew⟩
        · obtain ⟨h₁, h₂, h₃⟩ := hnew' d hd
          exact ⟨List.mem_cons_of_mem _ h₁, h₂, fun h => h₃ (Finset.mem_insert_of_mem h)⟩
      · rcases hmem d hd with h | h
        · rcases Finset.mem_insert.mp h with rfl | h
          · exact .inr List.mem_cons_self
          · exact .inl h
        · exact .inr (List.mem_cons_of_mem _ h)
    · have heq : builder.addDependencies (dep :: deps) (seen, pending) =
          builder.addDependencies deps (seen, pending) := by
        by_cases hexec : dep ∈ builder.epochStore.transactionsExecutedInCurEpoch
        · have hseen : dep ∈ seen := by simpa [hexec] using hnew
          simp [addDependencies, hexec, hseen]
        · simp [addDependencies, hexec]
      rw [heq]
      obtain ⟨hsub, hall, new, hp, hnew', hmem⟩ := ih seen pending
      refine ⟨hsub, fun d hd he => ?_, new, hp, fun d hd => ?_, hmem⟩
      · rcases List.mem_cons.mp hd with rfl | hd
        · exact hsub (by simpa [he] using hnew)
        · exact hall d hd he
      · obtain ⟨h₁, h₂, h₃⟩ := hnew' d hd
        exact ⟨List.mem_cons_of_mem _ h₁, h₂, h₃⟩

variable {builder} {existing : Finset ι} {effect : TransactionEffects ι κ}
  {roots : List (TransactionEffects ι κ)} {seen : Finset ι} {pending : List ι}
  {results : List (TransactionEffects ι κ)}

theorem processRoots_skip (h : ¬ builder.Qualifies existing effect) :
    builder.processRoots existing (effect :: roots) (seen, pending, results) =
      builder.processRoots existing roots (insert effect.transactionDigest seen, pending, results) := by
  simp only [processRoots]
  split_ifs with h₁ h₂
  · rfl
  · rfl
  · simp only [not_or, Bool.not_eq_true, not_lt] at h₂
    exact absurd ⟨h₁, h₂.1, h₂.2⟩ h

theorem processRoots_take (h : builder.Qualifies existing effect) :
    builder.processRoots existing (effect :: roots) (seen, pending, results) =
      builder.processRoots existing roots
        ((builder.addDependencies effect.dependencies (insert effect.transactionDigest seen, pending)).1,
        (builder.addDependencies effect.dependencies (insert effect.transactionDigest seen, pending)).2,
        results ++ [effect]) := by
  obtain ⟨h₁, h₂, h₃⟩ := h
  simp only [processRoots, h₁, h₂, if_false, Bool.false_eq_true, false_or, not_lt.mpr h₃]

variable (builder existing)

/-- Every effects the store holds for a transaction that qualifies is among the results. -/
def Settled (results : List (TransactionEffects ι κ)) (d : ι) : Prop :=
  ∀ e, builder.effectsStore d = some e → builder.Qualifies existing e → e ∈ results

/-- Effects a round may process: the store's effects of their transaction, which is a root
or an executed dependency of a collected transaction. -/
def Reached (roots₀ : List (TransactionEffects ι κ)) (e : TransactionEffects ι κ) : Prop :=
  builder.effectsStore e.transactionDigest = some e ∧
    (e ∈ roots₀ ∨ ∃ x, builder.Collected existing roots₀ x ∧ e.transactionDigest ∈ x.dependencies ∧
      e.transactionDigest ∈ builder.epochStore.transactionsExecutedInCurEpoch)

/-- The invariant of the loops, with `todo` the roots of the round still to process: the
results are collected, what is pending is an executed dependency of one of them, and every
seen transaction is settled, still to process, or pending. -/
structure RoundInv (roots₀ todo : List (TransactionEffects ι κ)) (seen : Finset ι)
    (pending : List ι) (results : List (TransactionEffects ι κ)) : Prop where
  results_collected : ∀ e ∈ results, builder.Collected existing roots₀ e
  todo_reached : ∀ e ∈ todo, builder.Reached existing roots₀ e
  pending_reached : ∀ d ∈ pending, d ∈ builder.epochStore.transactionsExecutedInCurEpoch ∧
    ∃ x, builder.Collected existing roots₀ x ∧ d ∈ x.dependencies
  pending_seen : ∀ d ∈ pending, d ∈ seen
  seen_settled : ∀ d ∈ seen,
    builder.Settled existing results d ∨ d ∈ todo.map (·.transactionDigest) ∨ d ∈ pending
  deps_seen : ∀ x ∈ results, ∀ d ∈ x.dependencies,
    d ∈ builder.epochStore.transactionsExecutedInCurEpoch → d ∈ seen
  roots_seen : ∀ e ∈ roots₀, e.transactionDigest ∈ seen ∨ e ∈ todo

variable {builder existing} {roots₀ : List (TransactionEffects ι κ)}

omit [LinearOrder ι] in
theorem Reached.collected {e : TransactionEffects ι κ} (h : builder.Reached existing roots₀ e)
    (hq : builder.Qualifies existing e) : builder.Collected existing roots₀ e := by
  rcases h.2 with h' | ⟨x, hx, hd, he⟩
  · exact .root h' hq
  · exact .dependency hx hd he h.1 hq

omit [LinearOrder ι] in
theorem Settled.mono {results' : List (TransactionEffects ι κ)} {d : ι}
    (h : builder.Settled existing results d) (hsub : ∀ e ∈ results, e ∈ results') :
    builder.Settled existing results' d :=
  fun e he hq => hsub e (h e he hq)

/-- A root that does not qualify is only marked seen. -/
theorem RoundInv.skip (hinv : builder.RoundInv existing roots₀ (effect :: roots) seen pending results)
    (hq : ¬ builder.Qualifies existing effect) :
    builder.RoundInv existing roots₀ roots (insert effect.transactionDigest seen) pending results := by
  -- the store's effects for the root are the root's, which does not qualify
  have hsettled : builder.Settled existing results effect.transactionDigest := fun e he hqe => by
    obtain rfl := Option.some.inj (he.symm.trans (hinv.todo_reached effect List.mem_cons_self).1)
    exact absurd hqe hq
  refine { hinv with
    todo_reached := fun e he => hinv.todo_reached e (List.mem_cons_of_mem _ he)
    pending_seen := fun d hd => Finset.mem_insert_of_mem (hinv.pending_seen d hd)
    seen_settled := fun d hd => ?_
    deps_seen := fun x hx d hd he => Finset.mem_insert_of_mem (hinv.deps_seen x hx d hd he)
    roots_seen := fun e he => ?_ }
  · rcases Finset.mem_insert.mp hd with rfl | hd
    · exact .inl hsettled
    · rcases hinv.seen_settled d hd with h | h | h
      · exact .inl h
      · rw [List.map_cons, List.mem_cons] at h
        rcases h with rfl | h
        · exact .inl hsettled
        · exact .inr (.inl h)
      · exact .inr (.inr h)
  · rcases hinv.roots_seen e he with h | h
    · exact .inl (Finset.mem_insert_of_mem h)
    · rcases List.mem_cons.mp h with rfl | h
      · exact .inl (Finset.mem_insert_self _ _)
      · exact .inr h

/-- A root that qualifies is collected, and its new executed dependencies become pending. -/
theorem RoundInv.take (hinv : builder.RoundInv existing roots₀ (effect :: roots) seen pending results)
    (hq : builder.Qualifies existing effect) :
    builder.RoundInv existing roots₀ roots
      (builder.addDependencies effect.dependencies (insert effect.transactionDigest seen, pending)).1
      (builder.addDependencies effect.dependencies (insert effect.transactionDigest seen, pending)).2
      (results ++ [effect]) := by
  have hreached := hinv.todo_reached effect List.mem_cons_self
  have hcollected : builder.Collected existing roots₀ effect := hreached.collected hq
  obtain ⟨hsub, hall, new, hp, hnew, hmem⟩ :=
    builder.addDependencies_spec effect.dependencies (insert effect.transactionDigest seen) pending
  have hseen : ∀ d ∈ seen, d ∈ (builder.addDependencies effect.dependencies
      (insert effect.transactionDigest seen, pending)).1 :=
    fun d hd => hsub (Finset.mem_insert_of_mem hd)
  have hsettled : builder.Settled existing (results ++ [effect]) effect.transactionDigest :=
    fun e he _ => by
      obtain rfl := Option.some.inj (he.symm.trans hreached.1)
      simp
  have hmono : ∀ e ∈ results, e ∈ results ++ [effect] := fun e he => List.mem_append_left _ he
  refine ⟨fun e he => ?_, fun e he => hinv.todo_reached e (List.mem_cons_of_mem _ he),
    fun d hd => ?_, fun d hd => ?_, fun d hd => ?_, fun x hx d hd he => ?_, fun e he => ?_⟩
  · rcases List.mem_append.mp he with he | he
    · exact hinv.results_collected e he
    · obtain rfl := List.mem_singleton.mp he
      exact hcollected
  · rw [hp] at hd
    rcases List.mem_append.mp hd with hd | hd
    · exact hinv.pending_reached d hd
    · obtain ⟨hdep, hexec, -⟩ := hnew d hd
      exact ⟨hexec, effect, hcollected, hdep⟩
  · rw [hp] at hd
    rcases List.mem_append.mp hd with hd | hd
    · exact hseen d (hinv.pending_seen d hd)
    · obtain ⟨hdep, hexec, -⟩ := hnew d hd
      exact hall d hdep hexec
  · rcases hmem d hd with h | h
    · rcases Finset.mem_insert.mp h with rfl | h
      · exact .inl hsettled
      · rcases hinv.seen_settled d h with h | h | h
        · exact .inl (h.mono hmono)
        · rw [List.map_cons, List.mem_cons] at h
          rcases h with rfl | h
          · exact .inl hsettled
          · exact .inr (.inl h)
        · exact .inr (.inr (by rw [hp]; exact List.mem_append_left _ h))
    · exact .inr (.inr (by rw [hp]; exact List.mem_append_right _ h))
  · rcases List.mem_append.mp hx with hx | hx
    · exact hseen d (hinv.deps_seen x hx d hd he)
    · obtain rfl := List.mem_singleton.mp hx
      exact hall d hd he
  · rcases hinv.roots_seen e he with h | h
    · exact .inl (hseen _ h)
    · rcases List.mem_cons.mp h with rfl | h
      · exact .inl (hsub (Finset.mem_insert_self _ _))
      · exact .inr h

/-- A round keeps the invariant, only adds to `seen`, and makes pending only transactions
it had not seen. -/
theorem processRoots_inv : ∀ (todo : List (TransactionEffects ι κ)) (seen : Finset ι)
    (pending : List ι) (results : List (TransactionEffects ι κ)),
    builder.RoundInv existing roots₀ todo seen pending results →
    builder.RoundInv existing roots₀ []
        (builder.processRoots existing todo (seen, pending, results)).1
        (builder.processRoots existing todo (seen, pending, results)).2.1
        (builder.processRoots existing todo (seen, pending, results)).2.2 ∧
      seen ⊆ (builder.processRoots existing todo (seen, pending, results)).1 ∧
      ∃ new, (builder.processRoots existing todo (seen, pending, results)).2.1 = pending ++ new ∧
        ∀ d ∈ new, d ∉ seen
  | [], seen, pending, results, hinv => ⟨hinv, le_rfl, [], by simp [processRoots], by simp⟩
  | effect :: todo, seen, pending, results, hinv => by
    by_cases hq : builder.Qualifies existing effect
    · rw [processRoots_take hq]
      obtain ⟨hsub₀, -, new₀, hp₀, hnew₀, -⟩ :=
        builder.addDependencies_spec effect.dependencies (insert effect.transactionDigest seen) pending
      obtain ⟨hinv', hsub, new, hp, hnew⟩ := processRoots_inv todo _ _ _ (hinv.take hq)
      refine ⟨hinv', fun d hd => hsub (hsub₀ (Finset.mem_insert_of_mem hd)), new₀ ++ new,
        by rw [hp, hp₀, List.append_assoc], fun d hd => ?_⟩
      rcases List.mem_append.mp hd with hd | hd
      · exact fun h => (hnew₀ d hd).2.2 (Finset.mem_insert_of_mem h)
      · exact fun h => hnew d hd (hsub₀ (Finset.mem_insert_of_mem h))
    · rw [processRoots_skip hq]
      obtain ⟨hinv', hsub, new, hp, hnew⟩ := processRoots_inv todo _ _ _ (hinv.skip hq)
      exact ⟨hinv', (Finset.subset_insert _ _).trans hsub, new, hp,
        fun d hd h => hnew d hd (Finset.mem_insert_of_mem h)⟩

/-! ### The rounds -/

omit [LinearOrder ι] in
theorem Collected.store (hroots : ∀ r ∈ roots₀, builder.effectsStore r.transactionDigest = some r)
    (hdigest : ∀ d e, builder.effectsStore d = some e → e.transactionDigest = d)
    {e : TransactionEffects ι κ} (h : builder.Collected existing roots₀ e) :
    builder.effectsStore e.transactionDigest = some e := by
  cases h with
  | root hr _ => exact hroots _ hr
  | dependency _ _ _ hstore _ => rwa [hdigest _ _ hstore]

omit [LinearOrder ι] in
/-- When nothing is pending, every collected transaction is among the results. -/
theorem RoundInv.complete (hroots : ∀ r ∈ roots₀, builder.effectsStore r.transactionDigest = some r)
    (hinv : builder.RoundInv existing roots₀ [] seen [] results) {e : TransactionEffects ι κ}
    (he : builder.Collected existing roots₀ e) : e ∈ results := by
  have hsettled : ∀ d ∈ seen, builder.Settled existing results d := fun d hd => by
    simpa using hinv.seen_settled d hd
  induction he with
  | root hr hq => exact hsettled _ (by simpa using hinv.roots_seen _ hr) _ (hroots _ hr) hq
  | dependency _ hd hexec hstore hq ih =>
    exact hsettled _ (hinv.deps_seen _ ih _ hd hexec) _ hstore hq

omit [LinearOrder ι] in
theorem multiGetExecutedEffects_ok {digests : List ι}
    (h : ∀ d ∈ digests, (builder.effectsStore d).isSome) :
    builder.multiGetExecutedEffects digests = .ok (digests.filterMap builder.effectsStore) := by
  induction digests with
  | nil => rfl
  | cons d digests ih =>
    obtain ⟨e, he⟩ := Option.isSome_iff_exists.mp (h d List.mem_cons_self)
    simp [multiGetExecutedEffects, he, ih (fun d' hd' => h d' (List.mem_cons_of_mem _ hd'))]

omit [LinearOrder ι] in
/-- The effects of what is pending start the next round, in any order. -/
theorem RoundInv.next {order : List ι} (hperm : order.Perm pending)
    (hstore : ∀ d ∈ builder.epochStore.transactionsExecutedInCurEpoch,
      (builder.effectsStore d).isSome)
    (hdigest : ∀ d e, builder.effectsStore d = some e → e.transactionDigest = d)
    (hinv : builder.RoundInv existing roots₀ [] seen pending results) :
    builder.multiGetExecutedEffects order = .ok (order.filterMap builder.effectsStore) ∧
      builder.RoundInv existing roots₀ (order.filterMap builder.effectsStore) seen [] results := by
  have hexec : ∀ d ∈ order, (builder.effectsStore d).isSome :=
    fun d hd => hstore d (hinv.pending_reached d (hperm.mem_iff.mp hd)).1
  refine ⟨builder.multiGetExecutedEffects_ok hexec, { hinv with
    todo_reached := fun e he => ?_
    pending_reached := by simp
    pending_seen := by simp
    seen_settled := fun d hd => ?_
    roots_seen := fun e he => .inl (by simpa using hinv.roots_seen e he) }⟩
  · obtain ⟨d, hd, hde⟩ := List.mem_filterMap.mp he
    obtain rfl := hdigest d e hde
    obtain ⟨hdx, x, hx, hdep⟩ := hinv.pending_reached _ (hperm.mem_iff.mp hd)
    exact ⟨hde, .inr ⟨x, hx, hdep, hdx⟩⟩
  · rcases hinv.seen_settled d hd with h | h | h
    · exact .inl h
    · simp at h
    · obtain ⟨e, he⟩ := Option.isSome_iff_exists.mp (hexec d (hperm.mem_iff.mpr h))
      refine .inr (.inl (List.mem_map.mpr ⟨e, List.mem_filterMap.mpr ⟨d, hperm.mem_iff.mpr h, he⟩,
        hdigest d e he⟩))

section Loop

variable {hashOrder : Nat → List ι → List ι} {fuel round : Nat} {seen' : Finset ι}
  {pending' : List ι} {results' : List (TransactionEffects ι κ)}

theorem completeLoop_done (h : builder.processRoots existing roots (seen, [], results) =
      (seen', [], results')) :
    builder.completeLoop hashOrder existing fuel round roots seen results = .ok results' := by
  rw [completeLoop, h]
  rfl

theorem completeLoop_next (h : builder.processRoots existing roots (seen, [], results) =
      (seen', pending', results')) (hp : pending' ≠ []) :
    builder.completeLoop hashOrder existing (fuel + 1) round roots seen results =
      builder.multiGetExecutedEffects (hashOrder round pending') >>= fun roots =>
        builder.completeLoop hashOrder existing fuel (round + 1) roots seen' results' := by
  rw [completeLoop, h]
  simp [hp]

end Loop

/-- The loop over rounds returns exactly the collected transactions: the induction is on
the fuel, which the executed transactions not yet seen bound, since every round that goes
on sees a new one. -/
theorem completeLoop_spec (hashOrder : Nat → List ι → List ι)
    (hperm : ∀ n l, (hashOrder n l).Perm l)
    (hstore : ∀ d ∈ builder.epochStore.transactionsExecutedInCurEpoch,
      (builder.effectsStore d).isSome)
    (hdigest : ∀ d e, builder.effectsStore d = some e → e.transactionDigest = d)
    (hroots : ∀ r ∈ roots₀, builder.effectsStore r.transactionDigest = some r) :
    ∀ (fuel round : Nat) (roots : List (TransactionEffects ι κ)) (seen : Finset ι)
      (results : List (TransactionEffects ι κ)),
      builder.RoundInv existing roots₀ roots seen [] results →
      (builder.epochStore.transactionsExecutedInCurEpoch.toFinset \ seen).card ≤ fuel →
      ∃ final, builder.completeLoop hashOrder existing fuel round roots seen results = .ok final ∧
        ∀ e, e ∈ final ↔ builder.Collected existing roots₀ e := by
  intro fuel
  induction fuel with
  | zero => ?_
  | succ fuel ih => ?_
  all_goals
    intro round roots seen results hinv hfuel
    obtain ⟨hinv', hsub, new, hp, hnew⟩ := processRoots_inv roots seen [] results hinv
    rcases hr : builder.processRoots existing roots (seen, [], results) with
      ⟨seen', pending', results'⟩
    rw [hr] at hinv' hsub hp
    simp only [List.nil_append] at hp
    subst pending'
    by_cases hpending : new = []
    · subst hpending
      exact ⟨results', completeLoop_done hr, fun e =>
        ⟨hinv'.results_collected e, fun he => hinv'.complete hroots he⟩⟩
    -- a round that goes on sees an executed transaction it had not seen
    obtain ⟨d, hd⟩ := List.exists_mem_of_ne_nil new hpending
    have hlt : (builder.epochStore.transactionsExecutedInCurEpoch.toFinset \ seen').card <
        (builder.epochStore.transactionsExecutedInCurEpoch.toFinset \ seen).card := by
      apply Finset.card_lt_card
      rw [Finset.ssubset_iff_of_subset (Finset.sdiff_subset_sdiff le_rfl hsub)]
      exact ⟨d, by simp [(hinv'.pending_reached d hd).1, hnew d hd],
        by simp [hinv'.pending_seen d hd]⟩
  · omega
  · obtain ⟨hfetch, hnext⟩ := hinv'.next (hperm round new) hstore hdigest
    obtain ⟨final, hrun, hfinal⟩ := ih (round + 1) _ seen' results' hnext (by omega)
    exact ⟨final, (completeLoop_next hr hpending).trans
      (Except.bind_eq_ok.mpr ⟨_, hfetch, hrun⟩), hfinal⟩

variable (builder)

/-- complete_checkpoint_effects returns exactly the collected transactions, and extends
`existing` by their digests. -/
theorem completeCheckpointEffects_spec (hashOrder : Nat → List ι → List ι)
    (hperm : ∀ n l, (hashOrder n l).Perm l)
    (hstore : ∀ d ∈ builder.epochStore.transactionsExecutedInCurEpoch,
      (builder.effectsStore d).isSome)
    (hdigest : ∀ d e, builder.effectsStore d = some e → e.transactionDigest = d)
    (roots : List (TransactionEffects ι κ))
    (hroots : ∀ r ∈ roots, builder.effectsStore r.transactionDigest = some r)
    (existing : Finset ι) :
    ∃ results, builder.completeCheckpointEffects hashOrder roots existing =
        .ok (results, existing ∪ (results.map (·.transactionDigest)).toFinset) ∧
      ∀ e, e ∈ results ↔ builder.Collected existing roots e := by
  have hstart : builder.RoundInv existing roots roots ∅ [] [] :=
    { results_collected := by simp
      todo_reached := fun e he => ⟨hroots e he, .inl he⟩
      pending_reached := by simp
      pending_seen := by simp
      seen_settled := by simp
      deps_seen := by simp
      roots_seen := fun e he => .inr he }
  obtain ⟨results, hrun, hresults⟩ := builder.completeLoop_spec hashOrder hperm hstore hdigest
    hroots _ 0 roots ∅ [] hstart (by simpa using List.toFinset_card_le _)
  exact ⟨results, by simp [completeCheckpointEffects, hrun], hresults⟩

/-! ### The sorted contents -/

variable {builder}

omit [LinearOrder ι] in
theorem Collected.of_roots {roots' : List (TransactionEffects ι κ)} (h : ∀ e ∈ roots₀, e ∈ roots')
    {e : TransactionEffects ι κ} (he : builder.Collected existing roots₀ e) :
    builder.Collected existing roots' e := by
  induction he with
  | root hr hq => exact .root (h _ hr) hq
  | dependency _ hd hexec hstore hq ih => exact .dependency ih hd hexec hstore hq

omit [LinearOrder ι] in
theorem collected_congr {roots' : List (TransactionEffects ι κ)}
    (h : ∀ e, e ∈ roots' ↔ e ∈ roots₀) (e : TransactionEffects ι κ) :
    builder.Collected existing roots' e ↔ builder.Collected existing roots₀ e :=
  ⟨Collected.of_roots (fun e he => (h e).mp he), Collected.of_roots (fun e he => (h e).mpr he)⟩

section Sorted

variable [DecidableEq κ] {results : List (TransactionEffects ι κ)}
  (hroots : ∀ r ∈ roots₀, builder.effectsStore r.transactionDigest = some r)
  (hdigest : ∀ d e, builder.effectsStore d = some e → e.transactionDigest = d)
  (hcollected : ∀ e ∈ results, builder.Collected existing roots₀ e)
include hroots hdigest hcollected

omit [LinearOrder ι] [DecidableEq κ] in
theorem consistent_of_collected : CausalOrder.Consistent results := fun e he e' he' hd => by
  have h₁ := (hcollected e he).store hroots hdigest
  have h₂ := (hcollected e' he').store hroots hdigest
  rw [hd] at h₁
  exact Option.some.inj (h₁.symm.trans h₂)

omit [LinearOrder ι] [DecidableEq κ] in
/-- Within collected effects, a dependency in the list is a dependency among the executed
transactions, and back. -/
theorem dependsOn_iff_of_collected {a b : TransactionEffects ι κ} (ha : a ∈ results)
    (hb : b ∈ results) :
    CausalOrder.DependsOn results a.transactionDigest b.transactionDigest ↔
      builder.DependsOn a.transactionDigest b.transactionDigest := by
  constructor
  · rintro ⟨ex, hex, ey, hey, hx, hy, hdep⟩
    refine ⟨ex, ey, ?_, ?_, hdep⟩
    · rw [← hx]
      exact (hcollected ex hex).store hroots hdigest
    · rw [← hy]
      exact (hcollected ey hey).store hroots hdigest
  · rintro ⟨ex, ey, hx, hy, hdep⟩
    obtain rfl := Option.some.inj (hx.symm.trans ((hcollected a ha).store hroots hdigest))
    obtain rfl := Option.some.inj (hy.symm.trans ((hcollected b hb).store hroots hdigest))
    exact ⟨_, ha, _, hb, rfl, rfl, hdep⟩

omit [LinearOrder ι] [DecidableEq κ] in
theorem acyclic_of_collected (hacyc : Acyclic builder.DependsOn) :
    Acyclic (CausalOrder.DependsOn results) := by
  refine hacyc.mono fun x y h => ?_
  obtain ⟨ex, hex, ey, hey, rfl, rfl, -⟩ := id h
  exact (dependsOn_iff_of_collected hroots hdigest hcollected hex hey).mp h

end Sorted

variable (builder)

/-- The new transactions of a checkpoint, causally sorted: exactly the transactions
reached from the roots through dependencies executed in the current epoch with every one
on the way qualifying, each once and never before one it depends on, the same whatever
the order of the roots and of the hash sets; and `existing` grows by exactly them. -/
theorem causalSort_completeCheckpointEffects [DecidableEq κ]
    (hstore : ∀ d ∈ builder.epochStore.transactionsExecutedInCurEpoch,
      (builder.effectsStore d).isSome)
    (hdigest : ∀ d e, builder.effectsStore d = some e → e.transactionDigest = d)
    (hacyc : Acyclic builder.DependsOn) (hashOrder : Nat → List ι → List ι)
    (hperm : ∀ n l, (hashOrder n l).Perm l) (roots : List (TransactionEffects ι κ))
    (hroots : ∀ r ∈ roots, builder.effectsStore r.transactionDigest = some r)
    (existing : Finset ι) :
    ∃ results out, builder.completeCheckpointEffects hashOrder roots existing =
        .ok (results, existing ∪ (out.map (·.transactionDigest)).toFinset) ∧
      CausalOrder.causalSort results = .ok out ∧
      (out.map (·.transactionDigest)).Nodup ∧
      (∀ e, e ∈ out ↔ builder.Collected existing roots e) ∧
      out.Pairwise (fun a b => ¬ builder.DependsOn a.transactionDigest b.transactionDigest) ∧
      ∀ roots' : List (TransactionEffects ι κ), (∀ e, e ∈ roots' ↔ e ∈ roots) →
        ∀ hashOrder' : Nat → List ι → List ι, (∀ n l, (hashOrder' n l).Perm l) →
          ∃ results', builder.completeCheckpointEffects hashOrder' roots' existing =
              .ok (results', existing ∪ (out.map (·.transactionDigest)).toFinset) ∧
            CausalOrder.causalSort results' = .ok out := by
  obtain ⟨results, hrun, hresults⟩ :=
    builder.completeCheckpointEffects_spec hashOrder hperm hstore hdigest roots hroots existing
  have hcollected : ∀ e ∈ results, builder.Collected existing roots e :=
    fun e he => (hresults e).mp he
  have hc := consistent_of_collected hroots hdigest hcollected
  obtain ⟨out, hsort, hkeys, hsub, hord⟩ :=
    CausalOrder.causalSort_spec hc (acyclic_of_collected hroots hdigest hcollected hacyc)
  -- the sort keeps exactly the results, one effects per transaction
  have hmem : ∀ e, e ∈ out ↔ e ∈ results := by
    refine fun e => ⟨hsub e, fun he => ?_⟩
    obtain ⟨e', he', hd⟩ := List.mem_map.mp
      (hkeys.mem_iff.mpr (mem_sortedSet.mpr (List.mem_map_of_mem he)))
    rwa [hc e' (hsub e' he') e he hd] at he'
  have hdigests : ∀ {results' : List (TransactionEffects ι κ)}, (∀ e, e ∈ results' ↔ e ∈ results) →
      (results'.map (·.transactionDigest)).toFinset = (out.map (·.transactionDigest)).toFinset := by
    intro results' h
    ext d
    simp [h, hmem]
  refine ⟨results, out, by rw [hrun, hdigests (fun _ => Iff.rfl)], hsort,
    hkeys.nodup_iff.mpr (nodup_sortedSet _), fun e => (hmem e).trans (hresults e), ?_, ?_⟩
  · exact hord.imp_of_mem fun ha hb hab hdep =>
      hab ((dependsOn_iff_of_collected hroots hdigest hcollected ((hmem _).mp ha)
        ((hmem _).mp hb)).mpr hdep)
  · intro roots' hroots' hashOrder' hperm'
    obtain ⟨results', hrun', hresults'⟩ := builder.completeCheckpointEffects_spec hashOrder'
      hperm' hstore hdigest roots' (fun r hr => hroots r ((hroots' r).mp hr)) existing
    have hsame : ∀ e, e ∈ results' ↔ e ∈ results := fun e => by
      rw [hresults', hresults, collected_congr hroots']
    refine ⟨results', by rw [hrun', hdigests hsame], ?_⟩
    rw [CausalOrder.causalSort_eq_of_mem_iff hsame
      (CausalOrder.consistent_of_mem_iff (fun e => (hsame e).symm) hc)]
    exact hsort

end CheckpointBuilder

/-! Three transactions of the current epoch: the root depends on one already in the
checkpoint being built, which depends on one that is in no checkpoint. -/

namespace PathThroughExisting

def later : TransactionEffects ℕ ℕ := ⟨1, [], [], 0⟩
def inCheckpoint : TransactionEffects ℕ ℕ := ⟨2, [1], [], 0⟩
def root : TransactionEffects ℕ ℕ := ⟨3, [2], [], 0⟩

def builder : CheckpointBuilder ℕ ℕ where
  epochStore := ⟨0, fun _ => false, [1, 2, 3]⟩
  effectsStore d := [later, inCheckpoint, root].find? (·.transactionDigest = d)

theorem effectsStore_digest (d : ℕ) (e : TransactionEffects ℕ ℕ)
    (h : builder.effectsStore d = some e) : e.transactionDigest = d := by
  have h' : [later, inCheckpoint, root].find? (·.transactionDigest = d) = some e := h
  simpa using List.find?_some h'

/-- Every dependency has a smaller digest. -/
theorem acyclic_dependsOn : Acyclic builder.DependsOn := by
  refine acyclic_of_rank id fun x y ⟨ex, ey, hx, hy, hdep⟩ => ?_
  show y < x
  have hdx := effectsStore_digest x ex hx
  have hmem := List.mem_of_find?_eq_some hx
  simp only [List.mem_cons, List.not_mem_nil, or_false] at hmem
  rcases hdep with hdep | ⟨key, ⟨o, ho, -⟩, -⟩
  · rcases hmem with rfl | rfl | rfl <;> simp [later, inCheckpoint, root] at hdx hdep <;> omega
  · rcases hmem with rfl | rfl | rfl <;> simp [later, inCheckpoint, root] at ho

/-- The sorted contents for the root are the root alone: the qualifying transaction reached
through the one already in the checkpoint is left out. -/
theorem completeCheckpointEffects_stops_at_existing :
    builder.completeCheckpointEffects (fun _ l => l) [root] {2} = .ok ([root], {2, 3}) ∧
      CausalOrder.causalSort [root] = .ok [root] ∧
      2 ∈ root.dependencies ∧ builder.effectsStore 2 = some inCheckpoint ∧
      1 ∈ inCheckpoint.dependencies ∧ builder.effectsStore 1 = some later ∧
      1 ∈ builder.epochStore.transactionsExecutedInCurEpoch ∧
      2 ∈ builder.epochStore.transactionsExecutedInCurEpoch ∧
      builder.Qualifies {2} later :=
  ⟨by decide, by decide, by decide, rfl, by decide, rfl, by decide, by decide,
    ⟨by decide, rfl, le_rfl⟩⟩

theorem causalSort_completeCheckpointEffects_pathThroughExisting :
    ∃ results out, builder.completeCheckpointEffects (fun _ l => l) [root] {2} =
        .ok (results, {2} ∪ (out.map (·.transactionDigest)).toFinset) ∧
      CausalOrder.causalSort results = .ok out ∧
      (out.map (·.transactionDigest)).Nodup ∧
      (∀ e, e ∈ out ↔ builder.Collected {2} [root] e) ∧
      out.Pairwise (fun a b => ¬ builder.DependsOn a.transactionDigest b.transactionDigest) ∧
      ∀ roots' : List (TransactionEffects ℕ ℕ), (∀ e, e ∈ roots' ↔ e ∈ [root]) →
        ∀ hashOrder' : Nat → List ℕ → List ℕ, (∀ n l, (hashOrder' n l).Perm l) →
          ∃ results', builder.completeCheckpointEffects hashOrder' roots' {2} =
              .ok (results', {2} ∪ (out.map (·.transactionDigest)).toFinset) ∧
            CausalOrder.causalSort results' = .ok out :=
  CheckpointBuilder.causalSort_completeCheckpointEffects builder (by decide) effectsStore_digest acyclic_dependsOn
    (fun _ l => l) (fun _ _ => .refl _) [root] (by decide) {2}

end PathThroughExisting

end Rtd.Checkpoints
