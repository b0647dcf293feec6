import Rtd.Except
import Rtd.Register
import Mathlib

/-!
The assignment of versions to the shared objects of the transactions that
consensus sequences (`rtd-core/src/authority/shared_object_version_manager.rs`).

`shared_input_next_versions` is a map from consensus object keys (an object and
its initial shared version) to the next version of the object; the model keeps it
as a function. The epoch store is read for three things: whether accumulators are
enabled and the accumulator root's key, the randomness state object, and the
cancelled transactions. The panics of the source (an `unwrap`, an `expect` and
the assertions) are the `Panic` errors.

The transaction key of a `Schedulable` is kept only as its digest, which is what
the cancellation lookup reads; `trace!` is left out.
-/

set_option autoImplicit false

namespace Rtd

namespace SharedObjVerManager

/-! ### Sequence numbers -/

/-- `SequenceNumber::MAX`; the special versions lie above it. -/
def maxSequenceNumber : Nat := 0x7fffffffffffffff

def cancelledRead : Nat := maxSequenceNumber + 1
def congested : Nat := maxSequenceNumber + 2
def randomnessUnavailable : Nat := maxSequenceNumber + 3

def u64Max : Nat := 2 ^ 64 - 1

def isCancelled (v : Nat) : Bool :=
  v = cancelledRead || v = congested || v = randomnessUnavailable

def isValid (v : Nat) : Bool := v < maxSequenceNumber

inductive Panic where
  | accumulatorsDisabled
  | missingAccumulatorVersion
  | missingNextVersion
  | lamportOverflow
  | invalidVersion
  | missingObject
  deriving DecidableEq, Repr

/-- `SequenceNumber::lamport_increment`: one above every input. -/
def lamportIncrement (inputs : List Nat) : Except Panic Nat :=
  let maxInput := inputs.foldl max 0
  if maxInput = u64Max then .error .lamportOverflow else .ok (maxInput + 1)

/-! ### Transactions -/

inductive SharedObjectMutability where
  | immutable
  | mutable
  | nonExclusiveWrite
  deriving DecidableEq, Repr

def SharedObjectMutability.isExclusive : SharedObjectMutability → Bool
  | .mutable => true
  | .immutable => false
  | .nonExclusiveWrite => false

variable {ι δ : Type} [DecidableEq ι]

structure SharedInputObject (ι : Type) where
  id : ι
  initialSharedVersion : Nat
  mutability : SharedObjectMutability
  deriving DecidableEq, Repr

/-- The consensus object key of a shared input. -/
def SharedInputObject.idAndVersion (o : SharedInputObject ι) : ι × Nat :=
  (o.id, o.initialSharedVersion)

inductive CancelConsensusCertificateReason (ι : Type) where
  | congestionOnObjects (objects : List ι)
  | dkgFailed
  deriving DecidableEq, Repr

/-- What the version assignment reads of a `Schedulable`. -/
structure Schedulable (ι δ : Type) where
  /-- `key().as_digest()`: user transactions have a digest, system ones may not. -/
  digest : Option δ
  isAccumulatorSettlement : Bool
  sharedInputObjects : List (SharedInputObject ι)
  nonSharedInputObjectKeys : List (ι × Nat)
  receivingObjectKeys : List (ι × Nat)

structure AssignedVersions (ι : Type) where
  sharedObjectVersions : List ((ι × Nat) × Nat)
  accumulatorVersion : Option Nat
  deriving DecidableEq, Repr

/-- What the epoch store answers. -/
structure EpochStore (ι δ : Type) where
  /-- The accumulator root's key, when accumulators are enabled. -/
  accumulatorRoot : Option (ι × Nat)
  randomnessStateObjectId : ι
  cancelledTxns : δ → Option (CancelConsensusCertificateReason ι)

/-- `shared_input_next_versions`. -/
def NextVersions (ι : Type) : Type := ι × Nat → Option Nat

variable (epochStore : EpochStore ι δ)

/-- The special version a cancelled transaction reads a shared object at. -/
def cancelledVersion (reason : CancelConsensusCertificateReason ι) (id : ι) : Nat :=
  match reason with
  | .congestionOnObjects congestedObjects => if id ∈ congestedObjects then congested else cancelledRead
  | .dkgFailed => if id = epochStore.randomnessStateObjectId then randomnessUnavailable
    else cancelledRead

/-- The current next version of every shared input; a missing one is the
`unwrap` panic. -/
def currentVersions (nextVersions : NextVersions ι) :
    List (SharedInputObject ι) → Except Panic (List (SharedInputObject ι × Nat))
  | [] => .ok []
  | o :: rest =>
    match nextVersions o.idAndVersion with
    | none => .error .missingNextVersion
    | some v => do
      let rest ← currentVersions nextVersions rest
      pure ((o, v) :: rest)

/-- `HashMap::insert`. -/
def NextVersions.insert (nextVersions : NextVersions ι) (key : ι × Nat) (version : Nat) :
    NextVersions ι :=
  fun key' => if key' = key then some version else nextVersions key'

/-- The update loop: each exclusively accessed object gets the new version; the
insert is expected to replace an entry. -/
def insertVersions (nextVersions : NextVersions ι) :
    List ((ι × Nat) × Nat) → Except Panic (NextVersions ι)
  | [] => .ok nextVersions
  | (id, version) :: rest =>
    if !isValid version then .error .invalidVersion
    else match nextVersions id with
      | none => .error .missingObject
      | some _ => insertVersions (nextVersions.insert id version) rest

/-- The accumulator root's next version, expected to be there when accumulators
are enabled. -/
def accumulatorVersion (nextVersions : NextVersions ι) : Except Panic (Option Nat) :=
  match epochStore.accumulatorRoot with
  | none => .ok none
  | some root =>
    match nextVersions root with
    | some version => .ok (some version)
    | none => .error .missingAccumulatorVersion

/-- `assert!(next_version.is_valid())`. -/
def assertValid (version : Nat) : Except Panic Unit :=
  if isValid version then .ok () else .error .invalidVersion

def assignVersionsForCertificate (assignable : Schedulable ι δ) (nextVersions : NextVersions ι) :
    Except Panic (AssignedVersions ι × NextVersions ι) := do
  let sharedInputObjects := assignable.sharedInputObjects
  let accumulatorVersion ← accumulatorVersion epochStore nextVersions
  if sharedInputObjects.isEmpty then
    return (⟨[], accumulatorVersion⟩, nextVersions)
  let cancellationInfo := assignable.digest.bind epochStore.cancelledTxns
  let inputObjectKeys := assignable.nonSharedInputObjectKeys ++ assignable.receivingObjectKeys
  match cancellationInfo with
  | some reason =>
    -- every shared object gets a special version; the lamport version reads the
    -- owned and receiving inputs only, and no next version moves
    let assignedVersions := sharedInputObjects.map fun o =>
      (o.idAndVersion, cancelledVersion epochStore reason o.id)
    let nextVersion ← lamportIncrement (inputObjectKeys.map Prod.snd)
    assertValid nextVersion
    pure (⟨assignedVersions, accumulatorVersion⟩, nextVersions)
  | none =>
    let current ← currentVersions nextVersions sharedInputObjects
    let assignedVersions := current.map fun p => (p.1.idAndVersion, p.2)
    let inputObjectKeys := inputObjectKeys ++ current.map fun p => (p.1.id, p.2)
    let nextVersion ← lamportIncrement (inputObjectKeys.map Prod.snd)
    assertValid nextVersion
    let updates := (current.filter fun p => p.1.mutability.isExclusive).map fun p =>
      (p.1.idAndVersion, nextVersion)
    let nextVersions ← insertVersions nextVersions updates
    pure (⟨assignedVersions, accumulatorVersion⟩, nextVersions)

/-- No accumulator settlement is scheduled while accumulators are disabled. -/
def assertAccumulatorsEnabled (assignable : Schedulable ι δ) : Except Panic Unit :=
  if assignable.isAccumulatorSettlement && epochStore.accumulatorRoot.isNone then
    .error .accumulatorsDisabled
  else .ok ()

/-- The loop of `assign_versions_from_consensus`, from the versions that
`get_or_init_versions` read. -/
def assignVersionsFromConsensus (nextVersions : NextVersions ι) :
    List (Schedulable ι δ) → Except Panic (List (AssignedVersions ι) × NextVersions ι)
  | [] => .ok ([], nextVersions)
  | assignable :: rest => do
    assertAccumulatorsEnabled epochStore assignable
    let (assigned, nextVersions) ← assignVersionsForCertificate epochStore assignable nextVersions
    let (assignedRest, nextVersions) ← assignVersionsFromConsensus nextVersions rest
    pure (assigned :: assignedRest, nextVersions)

/-! ### One assignment -/

theorem foldl_max_spec (l : List Nat) (a : Nat) :
    a ≤ l.foldl max a ∧ ∀ v ∈ l, v ≤ l.foldl max a := by
  induction l generalizing a with
  | nil => simp
  | cons x l ih =>
    obtain ⟨hle, hall⟩ := ih (max a x)
    refine ⟨(le_max_left a x).trans hle, fun v hv => ?_⟩
    rcases List.mem_cons.1 hv with rfl | hv
    · exact (le_max_right a v).trans hle
    · exact hall v hv

theorem foldl_max_le {l : List Nat} {a b : Nat} (ha : a ≤ b) (hl : ∀ v ∈ l, v ≤ b) :
    l.foldl max a ≤ b := by
  induction l generalizing a with
  | nil => exact ha
  | cons x l ih =>
    exact ih (max_le ha (hl x List.mem_cons_self)) fun v hv => hl v (List.mem_cons_of_mem _ hv)

theorem lt_of_lamportIncrement {inputs : List Nat} {n : Nat} (h : lamportIncrement inputs = .ok n) :
    ∀ v ∈ inputs, v < n := by
  unfold lamportIncrement at h
  dsimp only at h
  split at h
  · cases h
  · cases h
    intro v hv
    exact Nat.lt_succ_of_le ((foldl_max_spec inputs 0).2 v hv)

/-- Inputs below a positive bound up to `u64::MAX` give a lamport version at most
the bound. -/
theorem lamportIncrement_le (inputs : List Nat) {b : Nat} (hpos : 0 < b) (hb : b ≤ u64Max)
    (h : ∀ v ∈ inputs, v < b) : ∃ n, lamportIncrement inputs = .ok n ∧ n ≤ b := by
  have hmax : inputs.foldl max 0 ≤ b - 1 :=
    foldl_max_le (Nat.zero_le _) fun v hv => Nat.le_sub_one_of_lt (h v hv)
  refine ⟨inputs.foldl max 0 + 1, ?_, by omega⟩
  unfold lamportIncrement
  rw [if_neg (by omega)]

omit [DecidableEq ι] in
theorem currentVersions_of_present {nextVersions : NextVersions ι} {l : List (SharedInputObject ι)}
    (h : ∀ o ∈ l, (nextVersions o.idAndVersion).isSome) :
    currentVersions nextVersions l = .ok (l.map fun o => (o, (nextVersions o.idAndVersion).getD 0)) := by
  induction l with
  | nil => rfl
  | cons o rest ih =>
    obtain ⟨v, hv⟩ := Option.isSome_iff_exists.1 (h o List.mem_cons_self)
    simp [currentVersions, hv, ih fun o' ho' => h o' (List.mem_cons_of_mem _ ho')]

omit [DecidableEq ι] in
theorem present_of_currentVersions {nextVersions : NextVersions ι} {l : List (SharedInputObject ι)}
    {current : List (SharedInputObject ι × Nat)} (h : currentVersions nextVersions l = .ok current) :
    ∀ o ∈ l, (nextVersions o.idAndVersion).isSome := by
  induction l generalizing current with
  | nil => simp
  | cons o rest ih =>
    cases hv : nextVersions o.idAndVersion with
    | none => simp [currentVersions, hv] at h
    | some v =>
      simp only [currentVersions, hv] at h
      obtain ⟨current', hrest, -⟩ := Except.bind_eq_ok.1 h
      intro o' ho'
      rcases List.mem_cons.1 ho' with rfl | ho'
      · simp [hv]
      · exact ih hrest o' ho'

/-- The update loop inserts one version at each key it is given, all of them present. -/
theorem insertVersions_const {nextVersions nextVersions' : NextVersions ι} {keys : List (ι × Nat)}
    {version : Nat} (h : insertVersions nextVersions (keys.map fun k => (k, version)) = .ok nextVersions') :
    ∀ k, nextVersions' k = if k ∈ keys then some version else nextVersions k := by
  induction keys generalizing nextVersions with
  | nil =>
    cases h
    simp
  | cons key rest ih =>
    simp only [List.map_cons, insertVersions] at h
    split at h
    · cases h
    split at h
    · cases h
    intro k
    rw [ih h k]
    by_cases hk : k = key <;> simp [NextVersions.insert, hk]

theorem insertVersions_of_present {nextVersions : NextVersions ι} {keys : List (ι × Nat)}
    {version : Nat} (hvalid : isValid version = true)
    (h : ∀ k ∈ keys, (nextVersions k).isSome) :
    ∃ nextVersions', insertVersions nextVersions (keys.map fun k => (k, version)) = .ok nextVersions' := by
  induction keys generalizing nextVersions with
  | nil => exact ⟨_, rfl⟩
  | cons key rest ih =>
    obtain ⟨v, hv⟩ := Option.isSome_iff_exists.1 (h key List.mem_cons_self)
    have hrest : ∀ k ∈ rest, ((nextVersions.insert key version) k).isSome := fun k hk => by
      by_cases hkk : k = key
      · simp [NextVersions.insert, hkk]
      · simpa [NextVersions.insert, hkk] using h k (List.mem_cons_of_mem _ hk)
    simp only [List.map_cons, insertVersions, hvalid, Bool.not_true, Bool.false_eq_true, if_false, hv]
    exact ih hrest

/-! ### What one assignment does -/

/-- The cancellation of a transaction, looked up by its digest. -/
def cancellation (assignable : Schedulable ι δ) : Option (CancelConsensusCertificateReason ι) :=
  assignable.digest.bind epochStore.cancelledTxns

/-- The keys a transaction accesses, and those it accesses exclusively. -/
def Schedulable.accessed (assignable : Schedulable ι δ) : List (ι × Nat) :=
  assignable.sharedInputObjects.map SharedInputObject.idAndVersion

def Schedulable.exclusivelyAccessed (assignable : Schedulable ι δ) : List (ι × Nat) :=
  (assignable.sharedInputObjects.filter fun o => o.mutability.isExclusive).map
    SharedInputObject.idAndVersion

/-- The versions the lamport version of a transaction that is not cancelled is
computed from: its owned and receiving inputs and the versions assigned to its
shared inputs. -/
def Schedulable.inputVersions (assignable : Schedulable ι δ) (nextVersions : NextVersions ι) :
    List Nat :=
  (assignable.nonSharedInputObjectKeys ++ assignable.receivingObjectKeys).map Prod.snd ++
    assignable.accessed.map fun k => (nextVersions k).getD 0

/-- One assignment, as `assign_versions_for_certificate` makes it. -/
structure Step (ι δ : Type) where
  assignable : Schedulable ι δ
  before : NextVersions ι
  assigned : AssignedVersions ι
  after : NextVersions ι

/-- What an assignment guarantees. A cancelled transaction gets special versions
and moves nothing. Any other gets the current next version of each of its shared
inputs, and the keys it accesses exclusively move to one lamport version, valid and
above every version it read. -/
structure StepSpec (s : Step ι δ) : Prop where
  cancelled : cancellation epochStore s.assignable ≠ none →
    s.after = s.before ∧ ∀ p ∈ s.assigned.sharedObjectVersions, isCancelled p.2 = true
  current : cancellation epochStore s.assignable = none →
    s.assigned.sharedObjectVersions = s.assignable.accessed.map fun k => (k, (s.before k).getD 0)
  lamport : cancellation epochStore s.assignable = none → ∃ l,
    (s.assignable.sharedInputObjects ≠ [] →
      isValid l = true ∧ ∀ v ∈ s.assignable.inputVersions s.before, v < l) ∧
    ∀ k, s.after k = if k ∈ s.assignable.exclusivelyAccessed then some l else s.before k

theorem isCancelled_cancelledVersion (reason : CancelConsensusCertificateReason ι) (id : ι) :
    isCancelled (cancelledVersion epochStore reason id) = true := by
  cases reason <;> simp only [cancelledVersion] <;> split <;> simp [isCancelled]

omit [DecidableEq ι] in
theorem exclusiveUpdates_eq (assignable : Schedulable ι δ) (nextVersions : NextVersions ι)
    (l : Nat) :
    ((assignable.sharedInputObjects.map fun o => (o, (nextVersions o.idAndVersion).getD 0)).filter
        fun p => p.1.mutability.isExclusive).map (fun p => (p.1.idAndVersion, l)) =
      assignable.exclusivelyAccessed.map fun k => (k, l) := by
  simp [Schedulable.exclusivelyAccessed, List.filter_map, Function.comp_def]

theorem assignVersionsForCertificate_spec {assignable : Schedulable ι δ}
    {nextVersions nextVersions' : NextVersions ι} {assigned : AssignedVersions ι}
    (h : assignVersionsForCertificate epochStore assignable nextVersions = .ok (assigned, nextVersions')) :
    StepSpec epochStore ⟨assignable, nextVersions, assigned, nextVersions'⟩ := by
  unfold assignVersionsForCertificate at h
  obtain ⟨accumulatorVersion, -, h⟩ := Except.bind_eq_ok.1 h
  dsimp only at h
  split at h
  · -- no shared input: nothing is assigned and nothing moves
    rename_i hempty
    rw [List.isEmpty_iff] at hempty
    simp only [Except.pure_eq_ok, Prod.mk.injEq] at h
    obtain ⟨rfl, rfl⟩ := h
    refine ⟨fun _ => ⟨rfl, by simp⟩, fun _ => ?_, fun _ => ⟨0, fun hne => absurd hempty hne, ?_⟩⟩
    · simp [Schedulable.accessed, hempty]
    · simp [Schedulable.exclusivelyAccessed, hempty]
  cases hc : assignable.digest.bind epochStore.cancelledTxns with
  | some reason =>
    rw [hc] at h
    obtain ⟨lamport, -, h⟩ := Except.bind_eq_ok.1 h
    obtain ⟨-, -, h⟩ := Except.bind_eq_ok.1 h
    simp only [Except.pure_eq_ok, Prod.mk.injEq] at h
    obtain ⟨rfl, rfl⟩ := h
    have hc' : cancellation epochStore assignable = some reason := hc
    refine ⟨fun _ => ⟨rfl, ?_⟩, (fun h => by simp [hc'] at h), (fun h => by simp [hc'] at h)⟩
    intro p hp
    obtain ⟨o, -, rfl⟩ := List.mem_map.1 hp
    exact isCancelled_cancelledVersion epochStore reason o.id
  | none =>
    rw [hc] at h
    obtain ⟨current, hcurrent, h⟩ := Except.bind_eq_ok.1 h
    obtain ⟨lamport, hlamport, h⟩ := Except.bind_eq_ok.1 h
    obtain ⟨u, hvalid, h⟩ := Except.bind_eq_ok.1 h
    obtain ⟨nextVersions'', hinsert, h⟩ := Except.bind_eq_ok.1 h
    simp only [Except.pure_eq_ok, Prod.mk.injEq] at h
    obtain ⟨rfl, rfl⟩ := h
    have hpresent := present_of_currentVersions hcurrent
    rw [currentVersions_of_present hpresent, Except.ok.injEq] at hcurrent
    subst hcurrent
    have hc' : cancellation epochStore assignable = none := hc
    refine ⟨fun h => absurd hc' h, fun _ => ?_, fun _ => ⟨lamport, fun _ => ⟨?_, ?_⟩, ?_⟩⟩
    · simp [Schedulable.accessed]
    · unfold assertValid at hvalid
      split at hvalid
      · assumption
      · cases hvalid
    · intro v hv
      refine lt_of_lamportIncrement hlamport v ?_
      simpa [Schedulable.inputVersions, Schedulable.accessed, List.map_append] using hv
    · rw [exclusiveUpdates_eq] at hinsert
      exact insertVersions_const hinsert

/-! ### Runs -/

/-- The assignments of a run, each from the next versions the one before left. -/
inductive Run : NextVersions ι → List (Step ι δ) → NextVersions ι → Prop
  | nil (nextVersions : NextVersions ι) : Run nextVersions [] nextVersions
  | cons {s : Step ι δ} {steps : List (Step ι δ)} {final : NextVersions ι} :
      assignVersionsForCertificate epochStore s.assignable s.before = .ok (s.assigned, s.after) →
      Run s.after steps final → Run s.before (s :: steps) final

theorem run_of_assignVersionsFromConsensus {nextVersions final : NextVersions ι}
    {txs : List (Schedulable ι δ)} {assigned : List (AssignedVersions ι)}
    (h : assignVersionsFromConsensus epochStore nextVersions txs = .ok (assigned, final)) :
    ∃ steps, Run epochStore nextVersions steps final ∧ steps.map Step.assignable = txs ∧
      steps.map Step.assigned = assigned := by
  induction txs generalizing nextVersions assigned with
  | nil =>
    simp only [assignVersionsFromConsensus, Except.ok.injEq, Prod.mk.injEq] at h
    obtain ⟨rfl, rfl⟩ := h
    exact ⟨[], .nil _, rfl, rfl⟩
  | cons assignable rest ih =>
    simp only [assignVersionsFromConsensus] at h
    obtain ⟨u, -, h⟩ := Except.bind_eq_ok.1 h
    obtain ⟨⟨first, after⟩, hfirst, h⟩ := Except.bind_eq_ok.1 h
    obtain ⟨⟨assignedRest, final'⟩, hrest, h⟩ := Except.bind_eq_ok.1 h
    simp only [Except.pure_eq_ok, Prod.mk.injEq] at h
    obtain ⟨rfl, rfl⟩ := h
    obtain ⟨steps, hrun, hassignable, hassigned⟩ := ih hrest
    exact ⟨⟨assignable, nextVersions, first, after⟩ :: steps,
      Run.cons (s := ⟨assignable, nextVersions, first, after⟩) hfirst hrun,
      by simp [hassignable], by simp [hassigned]⟩

theorem Run.stepSpec {nextVersions final : NextVersions ι} {steps : List (Step ι δ)}
    (hrun : Run epochStore nextVersions steps final) : ∀ s ∈ steps, StepSpec epochStore s := by
  induction hrun with
  | nil => simp
  | cons hstep _ ih =>
    intro s hs
    rcases List.mem_cons.1 hs with rfl | hs
    · exact assignVersionsForCertificate_spec epochStore hstep
    · exact ih s hs

/-- The access of a transaction that is not cancelled to the key `k`: the version
it is assigned, whether it writes, and the next version it leaves. -/
def access (k : ι × Nat) (s : Step ι δ) : Option (Register.Access Nat) :=
  if cancellation epochStore s.assignable = none ∧ k ∈ s.assignable.accessed then
    some ⟨(s.assigned.sharedObjectVersions.lookup k).getD 0,
      decide (k ∈ s.assignable.exclusivelyAccessed), (s.after k).getD 0⟩
  else none

theorem lookup_map_pair {l : List (ι × Nat)} {f : ι × Nat → Nat} {k : ι × Nat} (hk : k ∈ l) :
    (l.map fun k' => (k', f k')).lookup k = some (f k) := by
  induction l with
  | nil => cases hk
  | cons k' rest ih =>
    by_cases h : k = k'
    · subst h
      simp
    · simp only [List.map_cons, List.lookup, beq_false_of_ne h]
      exact ih (List.mem_of_ne_of_mem h hk)

omit [DecidableEq ι] in
theorem exclusivelyAccessed_subset (assignable : Schedulable ι δ) {k : ι × Nat}
    (hk : k ∈ assignable.exclusivelyAccessed) : k ∈ assignable.accessed := by
  obtain ⟨o, ho, rfl⟩ := List.mem_map.1 hk
  exact List.mem_map_of_mem (List.mem_of_mem_filter ho)

/-- One step keeps the register of `k` serial: the version it leaves at `k` is
the one the access says, and a step that does not access `k` leaves it. -/
theorem access_step {s : Step ι δ} (hspec : StepSpec epochStore s) (k : ι × Nat) :
    match access epochStore k s with
    | none => s.after k = s.before k
    | some e => e.seen = (s.before k).getD 0 ∧ (e.exclusive = true → e.seen < e.written) ∧
        (if e.exclusive then e.written else (s.before k).getD 0) = (s.after k).getD 0 := by
  unfold access
  by_cases hc : cancellation epochStore s.assignable = none
  · obtain ⟨l, hl, hafter⟩ := hspec.lamport hc
    by_cases hk : k ∈ s.assignable.accessed
    · rw [if_pos ⟨hc, hk⟩]
      have hne : s.assignable.sharedInputObjects ≠ [] := by
        intro h
        simp [Schedulable.accessed, h] at hk
      obtain ⟨-, hlt⟩ := hl hne
      have hseen : (s.assigned.sharedObjectVersions.lookup k).getD 0 = (s.before k).getD 0 := by
        rw [hspec.current hc, lookup_map_pair hk]
        rfl
      have hread : (s.before k).getD 0 < l := hlt _ (List.mem_append_right _
        (List.mem_map_of_mem (f := fun k => (s.before k).getD 0) hk))
      refine ⟨hseen, fun hx => ?_, ?_⟩
      · rw [hseen, hafter k, if_pos (of_decide_eq_true hx)]
        exact hread
      · by_cases hx : k ∈ s.assignable.exclusivelyAccessed
        · simp [hafter k, hx]
        · simp [hafter k, hx]
    · rw [if_neg (fun h => hk h.2), hafter k,
        if_neg (fun h => hk (exclusivelyAccessed_subset s.assignable h))]
  · rw [if_neg (fun h => hc h.1)]
    rw [(hspec.cancelled hc).1]

/-- Along a run, the accesses to each key form a serial history of a register
starting at the key's first next version. -/
theorem Run.serial {nextVersions final : NextVersions ι} {steps : List (Step ι δ)}
    (hrun : Run epochStore nextVersions steps final) (k : ι × Nat) :
    Register.Serial ((nextVersions k).getD 0) (steps.filterMap (access epochStore k)) := by
  induction hrun with
  | nil => trivial
  | @cons s steps final hstep _ ih =>
    have hs := access_step epochStore (assignVersionsForCertificate_spec epochStore hstep) k
    cases ha : access epochStore k s with
    | none =>
      rw [ha] at hs
      rw [List.filterMap_cons_none ha, ← hs]
      exact ih
    | some e =>
      rw [ha] at hs
      obtain ⟨hseen, hwrite, hnext⟩ := hs
      rw [List.filterMap_cons_some ha]
      exact ⟨hseen, hwrite, hnext ▸ ih⟩

/-! ### No panic -/

section Bounds

variable {n : Nat}

omit [DecidableEq ι] in
/-- The accumulator version is read when the root has a next version. -/
theorem accumulatorVersion_ok {nextVersions : NextVersions ι}
    (hacc : ∀ root, epochStore.accumulatorRoot = some root → (nextVersions root).isSome) :
    ∃ v, accumulatorVersion epochStore nextVersions = .ok v := by
  unfold accumulatorVersion
  cases hroot : epochStore.accumulatorRoot with
  | none => exact ⟨_, rfl⟩
  | some root =>
    obtain ⟨v, hv⟩ := Option.isSome_iff_exists.1 (hacc root hroot)
    exact ⟨some v, by simp [hv]⟩

theorem assertValid_ok {l : Nat} (hl : l < maxSequenceNumber) : assertValid l = .ok () := by
  simp [assertValid, isValid, hl]

/-- With `n` transactions left and every version `n` below the maximum, one
assignment does not panic, and the versions it leaves are `n - 1` below it. -/
theorem assignVersionsForCertificate_ok {assignable : Schedulable ι δ}
    {nextVersions : NextVersions ι} (hn : 0 < n) (hlen : n < maxSequenceNumber)
    (hpresent : ∀ k ∈ assignable.accessed, (nextVersions k).isSome)
    (hacc : ∀ root, epochStore.accumulatorRoot = some root → (nextVersions root).isSome)
    (hbound : ∀ k v, nextVersions k = some v → v + n < maxSequenceNumber)
    (hinputs : ∀ p ∈ assignable.nonSharedInputObjectKeys ++ assignable.receivingObjectKeys,
      p.2 + n < maxSequenceNumber) :
    ∃ assigned after,
      assignVersionsForCertificate epochStore assignable nextVersions = .ok (assigned, after) ∧
      ∀ k v, after k = some v → v + (n - 1) < maxSequenceNumber := by
  have hb : maxSequenceNumber - n ≤ u64Max := by simp [maxSequenceNumber, u64Max]; omega
  have hold : ∀ k v, nextVersions k = some v → v + (n - 1) < maxSequenceNumber :=
    fun k v h => by have := hbound k v h; omega
  obtain ⟨accV, haccV⟩ := accumulatorVersion_ok epochStore hacc
  by_cases hempty : assignable.sharedInputObjects.isEmpty
  · exact ⟨⟨[], accV⟩, nextVersions, by simp [assignVersionsForCertificate, haccV, hempty],
      hold⟩
  cases hc : assignable.digest.bind epochStore.cancelledTxns with
  | some reason =>
    -- the lamport version of a cancelled transaction reads its owned inputs only
    obtain ⟨l, hl, hle⟩ := lamportIncrement_le
      ((assignable.nonSharedInputObjectKeys ++ assignable.receivingObjectKeys).map Prod.snd)
      (by omega) hb (fun v hv => by
        obtain ⟨p, hp, rfl⟩ := List.mem_map.1 hv
        have := hinputs p hp
        omega)
    refine ⟨⟨assignable.sharedInputObjects.map fun o =>
      (o.idAndVersion, cancelledVersion epochStore reason o.id), accV⟩, nextVersions, ?_, hold⟩
    simp only [assignVersionsForCertificate, haccV, hempty, hc, hl,
      assertValid_ok (show l < maxSequenceNumber by omega), Except.ok_bind, Except.pure_eq_ok,
      Bool.false_eq_true, if_false]
  | none =>
    have hcur := currentVersions_of_present
      (show ∀ o ∈ assignable.sharedInputObjects, (nextVersions o.idAndVersion).isSome from
        fun o ho => hpresent _ (List.mem_map_of_mem (f := SharedInputObject.idAndVersion) ho))
    obtain ⟨l, hl, hle⟩ := lamportIncrement_le
      (((assignable.nonSharedInputObjectKeys ++ assignable.receivingObjectKeys) ++
        (assignable.sharedInputObjects.map fun o => (o, (nextVersions o.idAndVersion).getD 0)).map
          fun p => (p.1.id, p.2)).map Prod.snd)
      (by omega) hb (fun v hv => by
        obtain ⟨p, hp, rfl⟩ := List.mem_map.1 hv
        rcases List.mem_append.1 hp with hp | hp
        · have := hinputs p hp
          omega
        · obtain ⟨q, hq, rfl⟩ := List.mem_map.1 hp
          obtain ⟨o, ho, rfl⟩ := List.mem_map.1 hq
          obtain ⟨v, hv⟩ := Option.isSome_iff_exists.1
            (hpresent _ (List.mem_map_of_mem (f := SharedInputObject.idAndVersion) ho))
          have := hbound _ v hv
          simp only [hv, Option.getD_some]
          omega)
    obtain ⟨after, hinsert⟩ := insertVersions_of_present
      (show isValid l = true by simp [isValid]; omega)
      (show ∀ k ∈ assignable.exclusivelyAccessed, (nextVersions k).isSome from
        fun k hk => hpresent k (exclusivelyAccessed_subset assignable hk))
    rw [← exclusiveUpdates_eq assignable nextVersions l] at hinsert
    refine ⟨⟨(assignable.sharedInputObjects.map fun o =>
      (o, (nextVersions o.idAndVersion).getD 0)).map fun p => (p.1.idAndVersion, p.2), accV⟩, after,
      ?_, fun k v hv => ?_⟩
    · simp only [assignVersionsForCertificate, haccV, hempty, hc, hcur, hl,
        assertValid_ok (show l < maxSequenceNumber by omega), hinsert, Except.ok_bind,
        Except.pure_eq_ok, Bool.false_eq_true, if_false]
    rw [exclusiveUpdates_eq] at hinsert
    rw [insertVersions_const hinsert k] at hv
    split at hv
    · cases hv
      omega
    · exact hold k v hv

theorem StepSpec.present {s : Step ι δ} (h : StepSpec epochStore s) {k : ι × Nat}
    (hk : (s.before k).isSome) : (s.after k).isSome := by
  by_cases hc : cancellation epochStore s.assignable = none
  · obtain ⟨l, -, hafter⟩ := h.lamport hc
    rw [hafter k]
    split
    · rfl
    · exact hk
  · rw [(h.cancelled hc).1]
    exact hk

omit [DecidableEq ι] in
theorem assertAccumulatorsEnabled_ok {assignable : Schedulable ι δ}
    (h : assignable.isAccumulatorSettlement = true → epochStore.accumulatorRoot.isSome) :
    assertAccumulatorsEnabled epochStore assignable = .ok () := by
  unfold assertAccumulatorsEnabled
  cases hs : assignable.isAccumulatorSettlement
  · rfl
  · simp [Option.isSome_iff_ne_none.1 (h hs)]

/-- A run of `n` transactions from versions `n` below the maximum, each shared input
with a next version, does not panic. -/
theorem assignVersionsFromConsensus_ok {txs : List (Schedulable ι δ)} {nextVersions : NextVersions ι}
    (hlen : txs.length < maxSequenceNumber)
    (hbound : ∀ k v, nextVersions k = some v → v + txs.length < maxSequenceNumber)
    (hinputs : ∀ a ∈ txs, ∀ p ∈ a.nonSharedInputObjectKeys ++ a.receivingObjectKeys,
      p.2 + txs.length < maxSequenceNumber)
    (hpresent : ∀ a ∈ txs, ∀ k ∈ a.accessed, (nextVersions k).isSome)
    (hacc : ∀ root, epochStore.accumulatorRoot = some root → (nextVersions root).isSome)
    (hsettle : ∀ a ∈ txs, a.isAccumulatorSettlement = true → epochStore.accumulatorRoot.isSome) :
    ∃ assigned final, assignVersionsFromConsensus epochStore nextVersions txs = .ok (assigned, final) := by
  induction txs generalizing nextVersions with
  | nil => exact ⟨[], nextVersions, rfl⟩
  | cons a rest ih =>
    simp only [List.length_cons] at hlen hbound hinputs
    obtain ⟨assigned, after, hstep, hafter⟩ := assignVersionsForCertificate_ok epochStore
      (Nat.succ_pos _) hlen (hpresent a List.mem_cons_self) hacc hbound (hinputs a List.mem_cons_self)
    have hspec := assignVersionsForCertificate_spec epochStore hstep
    obtain ⟨assignedRest, final, hrest⟩ := @ih after (by omega) hafter
      (fun a' ha' p hp => by have := hinputs a' (List.mem_cons_of_mem _ ha') p hp; omega)
      (fun a' ha' k hk => hspec.present epochStore (hpresent a' (List.mem_cons_of_mem _ ha') k hk))
      (fun root hroot => hspec.present epochStore (hacc root hroot))
      (fun a' ha' => hsettle a' (List.mem_cons_of_mem _ ha'))
    refine ⟨assigned :: assignedRest, final, ?_⟩
    simp only [assignVersionsFromConsensus,
      assertAccumulatorsEnabled_ok epochStore (hsettle a List.mem_cons_self), hstep, hrest,
      Except.ok_bind, Except.pure_eq_ok]

end Bounds

/-- Shared-object versions serialize the transactions, from versions `n` below the
maximum for `n` transactions: the run does not panic; each assignment gives a
cancelled transaction special versions and moves nothing, and gives any other the
current next version of each shared input and moves its exclusive keys to its
lamport version, above every version it read; and the accesses to every key form a
serial register history, in which each access sees the version of the latest
exclusive access before it and the writers see strictly increasing versions. -/
theorem assignVersionsFromConsensus_serializes {nextVersions : NextVersions ι}
    {txs : List (Schedulable ι δ)} (hlen : txs.length < maxSequenceNumber)
    (hbound : ∀ k v, nextVersions k = some v → v + txs.length < maxSequenceNumber)
    (hinputs : ∀ a ∈ txs, ∀ p ∈ a.nonSharedInputObjectKeys ++ a.receivingObjectKeys,
      p.2 + txs.length < maxSequenceNumber)
    (hpresent : ∀ a ∈ txs, ∀ k ∈ a.accessed, (nextVersions k).isSome)
    (hacc : ∀ root, epochStore.accumulatorRoot = some root → (nextVersions root).isSome)
    (hsettle : ∀ a ∈ txs, a.isAccumulatorSettlement = true → epochStore.accumulatorRoot.isSome) :
    ∃ steps final,
      assignVersionsFromConsensus epochStore nextVersions txs = .ok (steps.map Step.assigned, final) ∧
      Run epochStore nextVersions steps final ∧ steps.map Step.assignable = txs ∧
      (∀ s ∈ steps, StepSpec epochStore s) ∧
      ∀ k, Register.Serial ((nextVersions k).getD 0) (steps.filterMap (access epochStore k)) ∧
        (steps.filterMap (access epochStore k)).Pairwise fun e₁ e₂ =>
          e₁.seen ≤ e₂.seen ∧ (e₁.exclusive = true → e₁.seen < e₂.seen) := by
  obtain ⟨assigned, final, h⟩ :=
    assignVersionsFromConsensus_ok epochStore hlen hbound hinputs hpresent hacc hsettle
  obtain ⟨steps, hrun, hassignable, hassigned⟩ := run_of_assignVersionsFromConsensus epochStore h
  refine ⟨steps, final, by rw [hassigned]; exact h, hrun, hassignable,
    Run.stepSpec epochStore hrun, fun k => ⟨Run.serial epochStore hrun k,
      (Run.serial epochStore hrun k).pairwise⟩⟩

/-- A writer of object 1 and a reader of it after, from version 5. -/
def writeThenRead : List (Schedulable Nat Nat) :=
  [⟨some 1, false, [⟨1, 1, .mutable⟩], [(2, 3)], []⟩, ⟨some 2, false, [⟨1, 1, .immutable⟩], [], []⟩]

def noAccumulators : EpochStore Nat Nat := ⟨none, 0, fun _ => none⟩

def versionFive : NextVersions Nat := fun k => if k = (1, 1) then some 5 else none

theorem assignVersionsFromConsensus_serializes_writeThenRead :
    ∃ steps final,
      assignVersionsFromConsensus noAccumulators versionFive writeThenRead =
        .ok (steps.map Step.assigned, final) ∧
      Run noAccumulators versionFive steps final ∧ steps.map Step.assignable = writeThenRead ∧
      (∀ s ∈ steps, StepSpec noAccumulators s) ∧
      ∀ k, Register.Serial ((versionFive k).getD 0) (steps.filterMap (access noAccumulators k)) ∧
        (steps.filterMap (access noAccumulators k)).Pairwise fun e₁ e₂ =>
          e₁.seen ≤ e₂.seen ∧ (e₁.exclusive = true → e₁.seen < e₂.seen) :=
  assignVersionsFromConsensus_serializes noAccumulators (by decide)
    (fun k v h => by
      unfold versionFive at h
      split at h
      · cases h
        decide
      · cases h)
    (by decide)
    (fun a ha k hk => by
      simp only [writeThenRead, List.mem_cons, List.not_mem_nil, or_false] at ha
      rcases ha with rfl | rfl <;>
        simp_all [Schedulable.accessed, SharedInputObject.idAndVersion, versionFive])
    (fun root h => by cases h)
    (by decide)

end SharedObjVerManager

end Rtd
