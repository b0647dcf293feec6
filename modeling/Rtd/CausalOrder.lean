import Rtd.Toposort
import Rtd.Except
import Mathlib

/-!
The causal sort of checkpoint contents (crates/rtd-core/src/checkpoints/causal_order.rs).

`CausalOrder::causal_sort` keys the effects by transaction digest, adds to each
transaction's dependencies the read-before-overwrite edges of
`RWLockDependencyBuilder`, and then runs a depth-first search with an explicit stack of
`InsertState`s from every transaction that is still unseen, least digest first; a
transaction is output once every dependency it has in the map has been.

The map `not_seen` is only ever removed from after `from_vec` has built it, so it is
modelled by its ascending key list together with the entries `from_vec` stored. The
`Vec` of dependencies in an `InsertState` is kept reversed, so that `pop` takes its head.
Loops run on explicit fuel, and the theorems show that the fuel the model gives is
enough.
-/

set_option autoImplicit false

namespace Rtd.Checkpoints

open Toposort Relation

/-- A consensus object a transaction took as input, by the key of the version it used. -/
inductive InputConsensusObject (κ : Type) where
  | readOnly (key : κ)
  | mutate (key : κ)
  | readConsensusStreamEnded (key : κ)
  | mutateConsensusStreamEnded (key : κ)
  | cancelled
  deriving DecidableEq, Repr

namespace InputConsensusObject

variable {κ : Type}

/-- The version a read-only input read. -/
def readKey : InputConsensusObject κ → Option κ
  | readOnly key => some key
  | readConsensusStreamEnded key => some key
  | _ => none

/-- The version a mutable input overwrote. -/
def overwriteKey : InputConsensusObject κ → Option κ
  | mutate key => some key
  | mutateConsensusStreamEnded key => some key
  | _ => none

end InputConsensusObject

/-- The fields of a transaction's effects that checkpoint building reads. -/
structure TransactionEffects (ι κ : Type) where
  transactionDigest : ι
  dependencies : List ι
  inputConsensusObjects : List (InputConsensusObject κ)
  executedEpoch : Nat
  deriving DecidableEq, Repr

namespace TransactionEffects

variable {ι κ : Type}

/-- The transaction read version `key` of a consensus object without writing it. -/
def Reads (e : TransactionEffects ι κ) (key : κ) : Prop :=
  ∃ o ∈ e.inputConsensusObjects, o.readKey = some key

/-- The transaction overwrote version `key` of a consensus object. -/
def Overwrites (e : TransactionEffects ι κ) (key : κ) : Prop :=
  ∃ o ∈ e.inputConsensusObjects, o.overwriteKey = some key

end TransactionEffects

/-- The panics of checkpoint building, and the end of a model's fuel. -/
inductive Panic (ι : Type) where
  | cantUseInsertStateAfterItIsFinished
  | canNotFindEffect (digest : ι)
  | outOfFuel
  deriving DecidableEq, Repr

/-- The read-before-overwrite edges: for every consensus object version, the
transactions that only read it, and for every transaction, the versions it overwrote.
Both hash maps are total functions whose default is the empty vector. -/
structure RWLockDependencyBuilder (ι κ : Type) where
  readVersion : κ → List ι
  overwriteVersions : ι → List κ

namespace RWLockDependencyBuilder

variable {ι κ : Type} [DecidableEq ι] [DecidableEq κ]

def empty : RWLockDependencyBuilder ι κ := ⟨fun _ => [], fun _ => []⟩

/-- read_version.entry(key).or_default().push(digest) -/
def pushRead (b : RWLockDependencyBuilder ι κ) (key : κ) (digest : ι) :
    RWLockDependencyBuilder ι κ :=
  { b with readVersion := Function.update b.readVersion key (b.readVersion key ++ [digest]) }

/-- overwrite_versions.entry(digest).or_default().push(key) -/
def pushOverwrite (b : RWLockDependencyBuilder ι κ) (digest : ι) (key : κ) :
    RWLockDependencyBuilder ι κ :=
  { b with
    overwriteVersions :=
      Function.update b.overwriteVersions digest (b.overwriteVersions digest ++ [key]) }

/-- One input consensus object of the transaction `digest`. -/
def addInput (digest : ι) (b : RWLockDependencyBuilder ι κ) :
    InputConsensusObject κ → RWLockDependencyBuilder ι κ
  | .readOnly key => b.pushRead key digest
  | .mutate key => b.pushOverwrite digest key
  | .readConsensusStreamEnded key => b.pushRead key digest
  | .mutateConsensusStreamEnded key => b.pushOverwrite digest key
  | .cancelled => b

def fromEffects (effects : List (TransactionEffects ι κ)) : RWLockDependencyBuilder ι κ :=
  effects.foldl (fun b effect =>
    effect.inputConsensusObjects.foldl (addInput effect.transactionDigest) b) empty

/-- The dependency set `v` of the transaction `digest`, with the readers of every version
it overwrote inserted. -/
def addDependenciesFor [LinearOrder ι] (b : RWLockDependencyBuilder ι κ) (digest : ι)
    (v : List ι) : List ι :=
  sortedSet (v ++ (b.overwriteVersions digest).flatMap b.readVersion)

theorem mem_readVersion_addInput (b : RWLockDependencyBuilder ι κ) (digest d : ι)
    (kind : InputConsensusObject κ) (key : κ) :
    d ∈ (b.addInput digest kind).readVersion key ↔
      d ∈ b.readVersion key ∨ (d = digest ∧ kind.readKey = some key) := by
  cases kind with
  | readOnly k | readConsensusStreamEnded k =>
    by_cases hk : key = k
    · subst hk; simp [addInput, pushRead, InputConsensusObject.readKey]
    · simp [addInput, pushRead, InputConsensusObject.readKey, hk, Ne.symm hk]
  | mutate k | mutateConsensusStreamEnded k | cancelled =>
    simp [addInput, pushOverwrite, InputConsensusObject.readKey]

theorem mem_overwriteVersions_addInput (b : RWLockDependencyBuilder ι κ) (digest d : ι)
    (kind : InputConsensusObject κ) (key : κ) :
    key ∈ (b.addInput digest kind).overwriteVersions d ↔
      key ∈ b.overwriteVersions d ∨ (d = digest ∧ kind.overwriteKey = some key) := by
  cases kind with
  | mutate k | mutateConsensusStreamEnded k =>
    by_cases hd : d = digest
    · subst hd; simp [addInput, pushOverwrite, InputConsensusObject.overwriteKey, eq_comm]
    · simp [addInput, pushOverwrite, InputConsensusObject.overwriteKey, hd]
  | readOnly k | readConsensusStreamEnded k | cancelled =>
    simp [addInput, pushRead, InputConsensusObject.overwriteKey]

theorem mem_readVersion_foldl (digest : ι) (inputs : List (InputConsensusObject κ))
    (b : RWLockDependencyBuilder ι κ) (d : ι) (key : κ) :
    d ∈ (inputs.foldl (addInput digest) b).readVersion key ↔
      d ∈ b.readVersion key ∨ (d = digest ∧ ∃ o ∈ inputs, o.readKey = some key) := by
  induction inputs generalizing b with
  | nil => simp
  | cons o inputs ih =>
    rw [List.foldl_cons, ih, mem_readVersion_addInput]
    grind

theorem mem_overwriteVersions_foldl (digest : ι) (inputs : List (InputConsensusObject κ))
    (b : RWLockDependencyBuilder ι κ) (d : ι) (key : κ) :
    key ∈ (inputs.foldl (addInput digest) b).overwriteVersions d ↔
      key ∈ b.overwriteVersions d ∨ (d = digest ∧ ∃ o ∈ inputs, o.overwriteKey = some key) := by
  induction inputs generalizing b with
  | nil => simp
  | cons o inputs ih =>
    rw [List.foldl_cons, ih, mem_overwriteVersions_addInput]
    grind

theorem mem_readVersion_fromEffects (effects : List (TransactionEffects ι κ)) (d : ι)
    (key : κ) :
    d ∈ (fromEffects effects).readVersion key ↔
      ∃ e ∈ effects, e.transactionDigest = d ∧ e.Reads key := by
  suffices h : ∀ b : RWLockDependencyBuilder ι κ,
      d ∈ (effects.foldl (fun b effect =>
        effect.inputConsensusObjects.foldl (addInput effect.transactionDigest) b) b).readVersion
          key ↔ d ∈ b.readVersion key ∨ ∃ e ∈ effects, e.transactionDigest = d ∧ e.Reads key by
    simpa [fromEffects, empty] using h empty
  induction effects with
  | nil => simp
  | cons e effects ih =>
    intro b
    rw [List.foldl_cons, ih, mem_readVersion_foldl]
    simp only [TransactionEffects.Reads, List.mem_cons]
    grind

theorem mem_overwriteVersions_fromEffects (effects : List (TransactionEffects ι κ)) (d : ι)
    (key : κ) :
    key ∈ (fromEffects effects).overwriteVersions d ↔
      ∃ e ∈ effects, e.transactionDigest = d ∧ e.Overwrites key := by
  suffices h : ∀ b : RWLockDependencyBuilder ι κ,
      key ∈ (effects.foldl (fun b effect =>
        effect.inputConsensusObjects.foldl (addInput effect.transactionDigest) b) b).overwriteVersions
          d ↔ key ∈ b.overwriteVersions d ∨
            ∃ e ∈ effects, e.transactionDigest = d ∧ e.Overwrites key by
    simpa [fromEffects, empty] using h empty
  induction effects with
  | nil => simp
  | cons e effects ih =>
    intro b
    rw [List.foldl_cons, ih, mem_overwriteVersions_foldl]
    simp only [TransactionEffects.Overwrites, List.mem_cons]
    grind

end RWLockDependencyBuilder

/-- A transaction with its dependency set, the readers of what it overwrote included. -/
structure TransactionDependencies (ι κ : Type) where
  digest : ι
  dependencies : List ι
  effects : TransactionEffects ι κ

namespace TransactionDependencies

variable {ι κ : Type} [LinearOrder ι] [DecidableEq κ]

def fromEffects (effects : TransactionEffects ι κ) (rwlockBuilder : RWLockDependencyBuilder ι κ) :
    TransactionDependencies ι κ :=
  { digest := effects.transactionDigest
    dependencies := rwlockBuilder.addDependenciesFor effects.transactionDigest
      (sortedSet effects.dependencies)
    effects := effects }

omit [DecidableEq κ] in
@[simp] theorem fromEffects_digest (e : TransactionEffects ι κ) (b : RWLockDependencyBuilder ι κ) :
    (fromEffects e b).digest = e.transactionDigest := rfl

omit [DecidableEq κ] in
@[simp] theorem fromEffects_effects (e : TransactionEffects ι κ) (b : RWLockDependencyBuilder ι κ) :
    (fromEffects e b).effects = e := rfl

/-- A transaction depends on its effects' dependencies and on the readers, in the list,
of every version one of its effects in the list overwrote. -/
theorem mem_fromEffects_dependencies (effects : List (TransactionEffects ι κ))
    (e : TransactionEffects ι κ) (d : ι) :
    d ∈ (fromEffects e (RWLockDependencyBuilder.fromEffects effects)).dependencies ↔
      d ∈ e.dependencies ∨ ∃ key, (∃ e' ∈ effects, e'.transactionDigest = e.transactionDigest ∧
        e'.Overwrites key) ∧ ∃ e'' ∈ effects, e''.transactionDigest = d ∧ e''.Reads key := by
  simp [fromEffects, RWLockDependencyBuilder.addDependenciesFor,
    RWLockDependencyBuilder.mem_readVersion_fromEffects,
    RWLockDependencyBuilder.mem_overwriteVersions_fromEffects]

theorem fromEffects_congr {effects effects' : List (TransactionEffects ι κ)}
    (h : ∀ e, e ∈ effects ↔ e ∈ effects') (e : TransactionEffects ι κ) :
    fromEffects e (RWLockDependencyBuilder.fromEffects effects) =
      fromEffects e (RWLockDependencyBuilder.fromEffects effects') := by
  simp only [fromEffects, RWLockDependencyBuilder.addDependenciesFor]
  congr 1
  apply sortedSet_eq_of_mem_iff
  intro d
  simp [RWLockDependencyBuilder.mem_readVersion_fromEffects,
    RWLockDependencyBuilder.mem_overwriteVersions_fromEffects, h]

end TransactionDependencies

/-- The state of the causal sort: the entries of `not_seen` as `from_vec` stored them, the
keys still in it, ascending, and the effects output so far. -/
@[ext] structure CausalOrder (ι κ : Type) where
  entries : ι → Option (TransactionDependencies ι κ)
  notSeen : List ι
  output : List (TransactionEffects ι κ)
  present : ∀ key ∈ notSeen, (entries key).isSome

/-- One frame of the explicit stack: the dependencies not yet popped, last first, and the
transaction to output once they are all handled. -/
structure InsertState (ι κ : Type) where
  dependencies : List ι
  transaction : Option (TransactionDependencies ι κ)

namespace CausalOrder

variable {ι κ : Type} [LinearOrder ι]

def fromVec [DecidableEq κ] (effects : List (TransactionEffects ι κ)) : CausalOrder ι κ :=
  let rwlockBuilder := RWLockDependencyBuilder.fromEffects effects
  let dependencies := effects.map (TransactionDependencies.fromEffects · rwlockBuilder)
  -- collecting into a BTreeMap keeps the last entry of each key
  { entries := fun key => dependencies.reverse.find? (·.digest = key)
    notSeen := sortedSet (dependencies.map (·.digest))
    output := []
    present := fun key h => by
      obtain ⟨t, ht, rfl⟩ := List.mem_map.mp (mem_sortedSet.mp h)
      exact List.find?_isSome.mpr ⟨t, List.mem_reverse.mpr ht, by simp⟩ }

/-- not_seen.remove(key) -/
def remove (co : CausalOrder ι κ) (key : ι) :
    Option (TransactionDependencies ι κ × CausalOrder ι κ) :=
  if h : key ∈ co.notSeen then
    some ((co.entries key).get (co.present key h),
      { co with
        notSeen := co.notSeen.erase key
        present := fun k hk => co.present k (List.mem_of_mem_erase hk) })
  else none

def popFirst (co : CausalOrder ι κ) : Option (TransactionDependencies ι κ × CausalOrder ι κ) :=
  co.notSeen.head?.bind co.remove

/-- output.push(effects) -/
def push (co : CausalOrder ι κ) (effects : TransactionEffects ι κ) : CausalOrder ι κ :=
  { co with output := co.output ++ [effects] }

def intoList (co : CausalOrder ι κ) : List (TransactionEffects ι κ) := co.output

end CausalOrder

namespace InsertState

variable {ι κ : Type} [LinearOrder ι]

def new (transaction : TransactionDependencies ι κ) : InsertState ι κ :=
  ⟨transaction.dependencies.reverse, some transaction⟩

/-- InsertState::process on a state with the given transaction and dependencies still to
pop: the first popped dependency that is still unseen is removed and gets a frame of its
own; when none is left the transaction is output and the frame is finished. -/
def process (co : CausalOrder ι κ) (transaction : Option (TransactionDependencies ι κ)) :
    List ι → Except (Panic ι) (Option (InsertState ι κ) × InsertState ι κ × CausalOrder ι κ)
  | dep :: dependencies =>
    match co.remove dep with
    | some (depTransaction, co') => .ok (some (new depTransaction), ⟨dependencies, transaction⟩, co')
    | none => process co transaction dependencies
  | [] =>
    match transaction with
    | some transaction => .ok (none, ⟨[], none⟩, co.push transaction.effects)
    | none => .error .cantUseInsertStateAfterItIsFinished

end InsertState

namespace CausalOrder

variable {ι κ : Type}

section Loops

variable [LinearOrder ι]

/-- The loop of CausalOrder::insert over the stack of states, top first. -/
def insertLoop : Nat → List (InsertState ι κ) → CausalOrder ι κ → Except (Panic ι) (CausalOrder ι κ)
  | _, [], co => .ok co
  | 0, _ :: _, _ => .error .outOfFuel
  | fuel + 1, state :: states, co => do
    let (newState, state, co) ← InsertState.process co state.transaction state.dependencies
    match newState with
    | some newState => insertLoop fuel (newState :: state :: states) co
    | none => insertLoop fuel states co

/-- Every step removes an unseen key or pops a frame, so twice the unseen keys and one
more bound the steps. -/
def insert (co : CausalOrder ι κ) (transaction : TransactionDependencies ι κ) :
    Except (Panic ι) (CausalOrder ι κ) :=
  insertLoop (2 * co.notSeen.length + 1) [InsertState.new transaction] co

/-- while let Some(item) = this.pop_first() { this.insert(item) } -/
def causalSortLoop (fuel : Nat) (co : CausalOrder ι κ) : Except (Panic ι) (CausalOrder ι κ) :=
  match co.popFirst with
  | none => .ok co
  | some (item, co) =>
    match fuel with
    | 0 => .error .outOfFuel
    | fuel + 1 => co.insert item >>= causalSortLoop fuel

/-- Every round pops a key, so the keys bound the rounds. -/
def causalSort [DecidableEq κ] (effects : List (TransactionEffects ι κ)) :
    Except (Panic ι) (List (TransactionEffects ι κ)) := do
  let this := fromVec effects
  let this ← causalSortLoop this.notSeen.length this
  pure this.intoList


section Operations

variable (co : CausalOrder ι κ)

theorem remove_eq_none {key : ι} : co.remove key = none ↔ key ∉ co.notSeen := by
  unfold remove
  split <;> simp_all

/-- What removing a key does: the key was unseen, its entry is returned, and only the
key list changes. -/
theorem remove_eq_some {key : ι} {t : TransactionDependencies ι κ} {co' : CausalOrder ι κ}
    (h : co.remove key = some (t, co')) :
    key ∈ co.notSeen ∧ co.entries key = some t ∧ co'.entries = co.entries ∧
      co'.notSeen = co.notSeen.erase key ∧ co'.output = co.output := by
  unfold remove at h
  split at h
  · rename_i hkey
    simp only [Option.some.injEq, Prod.mk.injEq] at h
    obtain ⟨rfl, rfl⟩ := h
    exact ⟨hkey, (Option.some_get _).symm, rfl, rfl, rfl⟩
  · cases h

theorem remove_isSome {key : ι} (h : key ∈ co.notSeen) : (co.remove key).isSome := by
  simp [remove, h]

theorem popFirst_eq_none : co.popFirst = none ↔ co.notSeen = [] := by
  unfold popFirst
  cases hn : co.notSeen with
  | nil => simp
  | cons key rest =>
    have := co.remove_isSome (show key ∈ co.notSeen by simp [hn])
    simp only [List.head?_cons, Option.bind_some, reduceCtorEq, iff_false]
    exact Option.ne_none_iff_isSome.mpr this

theorem popFirst_eq_some {t : TransactionDependencies ι κ} {co' : CausalOrder ι κ}
    (h : co.popFirst = some (t, co')) :
    ∃ key rest, co.notSeen = key :: rest ∧ co.remove key = some (t, co') := by
  unfold popFirst at h
  cases hn : co.notSeen with
  | nil => simp [hn] at h
  | cons key rest => exact ⟨key, rest, rfl, by simpa [hn] using h⟩

omit [LinearOrder ι] in
@[simp] theorem push_entries (e : TransactionEffects ι κ) : (co.push e).entries = co.entries := rfl

omit [LinearOrder ι] in
@[simp] theorem push_notSeen (e : TransactionEffects ι κ) : (co.push e).notSeen = co.notSeen := rfl

omit [LinearOrder ι] in
@[simp] theorem push_output (e : TransactionEffects ι κ) :
    (co.push e).output = co.output ++ [e] := rfl

end Operations

/-- What one call of process can do: pop dependencies that are already seen and then
either remove an unseen one and return its new frame, or, with none left, output the
transaction. -/
theorem process_cases {co co' : CausalOrder ι κ} {transaction : Option (TransactionDependencies ι κ)}
    {deps : List ι} {newState : Option (InsertState ι κ)} {state : InsertState ι κ}
    (h : InsertState.process co transaction deps = .ok (newState, state, co')) :
    (∃ pre dep rest t, deps = pre ++ dep :: rest ∧ (∀ x ∈ pre, x ∉ co.notSeen) ∧
      co.remove dep = some (t, co') ∧ newState = some (InsertState.new t) ∧
      state = ⟨rest, transaction⟩) ∨
    ((∀ x ∈ deps, x ∉ co.notSeen) ∧
      ∃ t, transaction = some t ∧ newState = none ∧ co' = co.push t.effects) := by
  induction deps with
  | nil =>
    right
    cases transaction with
    | none => simp [InsertState.process] at h
    | some t =>
      simp only [InsertState.process, Except.ok.injEq, Prod.mk.injEq] at h
      exact ⟨by simp, t, rfl, h.1.symm, h.2.2.symm⟩
  | cons dep deps ih =>
    simp only [InsertState.process] at h
    split at h
    · rename_i t co'' hremove
      simp only [Except.ok.injEq, Prod.mk.injEq] at h
      obtain ⟨rfl, rfl, rfl⟩ := h
      exact .inl ⟨[], dep, deps, t, rfl, by simp, hremove, rfl, rfl⟩
    · rename_i hremove
      have hdep : dep ∉ co.notSeen := (remove_eq_none co).mp hremove
      rcases ih h with ⟨pre, d, rest, t, rfl, hpre, hrem, rfl, rfl⟩ | ⟨hall, t, rfl, rfl, rfl⟩
      · refine .inl ⟨dep :: pre, d, rest, t, rfl, ?_, hrem, rfl, rfl⟩
        simpa [hdep] using hpre
      · exact .inr ⟨by simpa [hdep] using hall, t, rfl, rfl, rfl⟩

/-- A frame that still holds its transaction never panics. -/
theorem process_ok (co : CausalOrder ι κ) (t : TransactionDependencies ι κ) (deps : List ι) :
    ∃ r, InsertState.process co (some t) deps = .ok r := by
  induction deps with
  | nil => exact ⟨_, rfl⟩
  | cons dep deps ih =>
    simp only [InsertState.process]
    split
    · exact ⟨_, rfl⟩
    · exact ih

end Loops

/-! ### The invariant of the depth-first search -/

/-- `y` is a recorded dependency of `x`, and has an entry itself. -/
def Edge (entries : ι → Option (TransactionDependencies ι κ)) (x y : ι) : Prop :=
  ∃ t, entries x = some t ∧ y ∈ t.dependencies ∧ (entries y).isSome

/-- The digests output so far. -/
def outputDigests (co : CausalOrder ι κ) : List ι := co.output.map (·.transactionDigest)

/-- The transactions of the frames of a stack, top first. -/
def active (states : List (InsertState ι κ)) : List ι :=
  states.filterMap fun s => s.transaction.map (·.digest)

@[simp] theorem active_nil : active ([] : List (InsertState ι κ)) = [] := rfl

theorem active_cons {s : InsertState ι κ} {t : TransactionDependencies ι κ}
    (h : s.transaction = some t) (states : List (InsertState ι κ)) :
    active (s :: states) = t.digest :: active states := by
  simp [active, h]

@[simp] theorem outputDigests_push (co : CausalOrder ι κ) (e : TransactionEffects ι κ) :
    (co.push e).outputDigests = co.outputDigests ++ [e.transactionDigest] := by
  simp [outputDigests, push]

section Invariant

variable (E : ι → Option (TransactionDependencies ι κ))

/-- One frame of the stack, below the frame holding `above` if there is one: it holds the
entry of its transaction, what it has still to pop are dependencies of it, the frame above
is one of them, and every dependency it has popped is output or is that frame. -/
structure Frame (done : List ι) (above : Option ι) (s : InsertState ι κ)
    (t : TransactionDependencies ι κ) : Prop where
  transaction : s.transaction = some t
  entry : E t.digest = some t
  pending : ∀ d ∈ s.dependencies, d ∈ t.dependencies
  above_dep : ∀ a, above = some a → a ∈ t.dependencies
  popped : ∀ d ∈ t.dependencies, d ∉ s.dependencies → (E d).isSome → d ∈ done ∨ above = some d

/-- The stack, top first, frame by frame. -/
inductive Stack (done : List ι) : Option ι → List (InsertState ι κ) → Prop
  | nil (above : Option ι) : Stack done above []
  | cons {above : Option ι} {s : InsertState ι κ} {t : TransactionDependencies ι κ}
      {states : List (InsertState ι κ)} :
      Frame E done above s t → Stack done (some t.digest) states → Stack done above (s :: states)

/-- The invariant of the sort, between any two steps of its loops: every key is output,
on the stack or unseen, exactly once; the output is closed under dependencies and lists
no transaction before one of its dependencies. -/
structure Inv (keys : List ι) (co : CausalOrder ι κ) (states : List (InsertState ι κ)) :
    Prop where
  entries : co.entries = E
  keyed : ∀ k t, E k = some t → t.digest = k ∧ t.effects.transactionDigest = k
  mem_keys : ∀ k, (E k).isSome → k ∈ keys
  nodup : keys.Nodup
  perm : (co.outputDigests ++ active states ++ co.notSeen).Perm keys
  stack : Stack E co.outputDigests none states
  closed : ∀ x ∈ co.outputDigests, ∀ y, Edge E x y → y ∈ co.outputDigests
  ordered : co.output.Pairwise fun a b => ¬ Edge E a.transactionDigest b.transactionDigest
  output_entry : ∀ e ∈ co.output, ∃ t, E e.transactionDigest = some t ∧ t.effects = e

variable {E}

theorem Frame.mono {done done' : List ι} {above : Option ι} {s : InsertState ι κ}
    {t : TransactionDependencies ι κ} (hf : Frame E done above s t)
    (h : ∀ d ∈ done, d ∈ done') : Frame E done' above s t :=
  { hf with popped := fun d hd hs he => (hf.popped d hd hs he).imp_left (h d) }

/-- A new frame has popped nothing yet. -/
theorem Frame.new {done : List ι} {t : TransactionDependencies ι κ} (h : E t.digest = some t) :
    Frame E done none (InsertState.new t) t where
  transaction := rfl
  entry := h
  pending := fun _ hd => List.mem_reverse.mp hd
  above_dep := fun _ h => nomatch h
  popped := fun _ hd hs _ => absurd (List.mem_reverse.mpr hd) hs

theorem Stack.mono {done done' : List ι} (h : ∀ d ∈ done, d ∈ done') :
    ∀ {above : Option ι} {states : List (InsertState ι κ)},
      Stack E done above states → Stack E done' above states
  | _, _, .nil above => .nil above
  | _, _, .cons hf hrest => .cons (hf.mono h) (hrest.mono h)

/-- When the frame above is finished and output, the stack below it is a stack on its own. -/
theorem Stack.release {done : List ι} {a : ι} {states : List (InsertState ι κ)}
    (h : Stack E done (some a) states) : Stack E (done ++ [a]) none states := by
  cases h with
  | nil => exact .nil none
  | cons hf hrest =>
    refine .cons { hf.mono (fun d hd => List.mem_append_left [a] hd) with
      above_dep := fun _ h => nomatch h
      popped := fun d hd hs he => ?_ } (hrest.mono (fun d hd => List.mem_append_left [a] hd))
    rcases hf.popped d hd hs he with h | h
    · exact .inl (List.mem_append_left _ h)
    · exact .inl (by simp_all)

/-- Every transaction on a stack reaches, through dependencies, the one above it. -/
theorem Stack.reaches {done : List ι} :
    ∀ {a : ι} {states : List (InsertState ι κ)}, Stack E done (some a) states →
      (E a).isSome → ∀ d ∈ active states, ReflTransGen (Edge E) d a
  | _, _, .nil _, _, d, hd => by simp at hd
  | a, _, .cons (t := t) hf hrest, ha, d, hd => by
    have hedge : Edge E t.digest a := ⟨t, hf.entry, hf.above_dep a rfl, ha⟩
    rw [active_cons hf.transaction] at hd
    rcases List.mem_cons.mp hd with rfl | hd
    · exact .single hedge
    · exact (hrest.reaches (by simp [hf.entry]) d hd).tail hedge

variable {keys : List ι} {co : CausalOrder ι κ} {s : InsertState ι κ}
  {states : List (InsertState ι κ)}

theorem Inv.mem_iff (hinv : Inv E keys co states) {k : ι} (hk : (E k).isSome) :
    k ∈ co.outputDigests ∨ k ∈ active states ∨ k ∈ co.notSeen := by
  have := hinv.perm.mem_iff.mpr (hinv.mem_keys k hk)
  simpa [or_assoc] using this

theorem Inv.nodup_parts (hinv : Inv E keys co states) :
    (co.outputDigests ++ active states ++ co.notSeen).Nodup :=
  hinv.perm.nodup_iff.mpr hinv.nodup

theorem Inv.top_frame (hinv : Inv E keys co (s :: states)) :
    ∃ t, Frame E co.outputDigests none s t ∧ Stack E co.outputDigests (some t.digest) states := by
  cases hinv.stack with
  | cons hf hrest => exact ⟨_, hf, hrest⟩

/-- The transaction on top of the stack is neither output nor unseen. -/
theorem Inv.top_fresh (hinv : Inv E keys co (s :: states)) {t : TransactionDependencies ι κ}
    (ht : s.transaction = some t) :
    t.digest ∉ co.outputDigests ∧ t.digest ∉ co.notSeen := by
  have hnd := hinv.nodup_parts
  rw [active_cons ht] at hnd
  simp only [List.nodup_append, List.mem_append, List.mem_cons] at hnd
  exact ⟨fun h => hnd.1.2.2 _ h _ (.inl rfl) rfl,
    fun h => hnd.2.2 _ (.inr (.inl rfl)) _ h rfl⟩

/-- The heart of the search: a dependency of the top transaction that is no longer unseen
is output, since on the stack it would close a cycle. -/
theorem Inv.mem_output_of_seen (hacyc : Acyclic (Edge E)) (hinv : Inv E keys co (s :: states))
    {t : TransactionDependencies ι κ} (hf : Frame E co.outputDigests none s t) {d : ι}
    (hd : d ∈ t.dependencies) (he : (E d).isSome) (hseen : d ∉ co.notSeen) :
    d ∈ co.outputDigests := by
  rcases hinv.mem_iff he with h | h | h
  · exact h
  · exfalso
    have hreach : ReflTransGen (Edge E) d t.digest := by
      rw [active_cons hf.transaction] at h
      rcases List.mem_cons.mp h with rfl | hdeep
      · exact .refl
      · obtain ⟨t', hf', hrest⟩ := hinv.top_frame
        rw [Option.some.inj (hf'.transaction.symm.trans hf.transaction)] at hrest
        exact hrest.reaches (by simp [hf.entry]) d hdeep
    exact hacyc.not_rel_of_reflTransGen hreach ⟨t, hf.entry, hd, he⟩
  · exact absurd h hseen

end Invariant

section Steps

variable [LinearOrder ι] {E : ι → Option (TransactionDependencies ι κ)} {keys : List ι}
  {co : CausalOrder ι κ} {s : InsertState ι κ} {states : List (InsertState ι κ)}

theorem perm_insert_middle {a : ι} {l₁ l₂ l₃ : List ι} (h : a ∈ l₃) :
    (l₁ ++ a :: l₂ ++ l₃.erase a).Perm (l₁ ++ l₂ ++ l₃) := by
  have h₁ : (l₁ ++ a :: l₂ ++ l₃.erase a).Perm (a :: (l₁ ++ l₂ ++ l₃.erase a)) := by
    rw [List.append_assoc, List.cons_append, List.append_assoc]
    exact List.perm_middle
  have h₂ : (l₁ ++ l₂ ++ l₃).Perm (a :: (l₁ ++ l₂ ++ l₃.erase a)) :=
    ((List.perm_cons_erase h).append_left _).trans List.perm_middle
  exact h₁.trans h₂.symm

/-- Removing an unseen dependency of the top transaction pushes a frame for it. -/
theorem Inv.push_frame (hacyc : Acyclic (Edge E)) (hinv : Inv E keys co (s :: states))
    {pre rest : List ι} {dep : ι} {t' : TransactionDependencies ι κ} {co' : CausalOrder ι κ}
    (hdeps : s.dependencies = pre ++ dep :: rest) (hpre : ∀ x ∈ pre, x ∉ co.notSeen)
    (hremove : co.remove dep = some (t', co')) :
    Inv E keys co' (InsertState.new t' :: ⟨rest, s.transaction⟩ :: states) := by
  obtain ⟨hdep, hentry, hE, hN, hO⟩ := co.remove_eq_some hremove
  obtain ⟨t, hf, hrest⟩ := hinv.top_frame
  rw [hinv.entries] at hentry
  have ht' : t'.digest = dep := (hinv.keyed dep t' hentry).1
  have hdone : co'.outputDigests = co.outputDigests := by simp [outputDigests, hO]
  have hactive : active (InsertState.new t' :: ⟨rest, s.transaction⟩ :: states) =
      dep :: t.digest :: active states := by
    rw [active_cons rfl, active_cons (show (⟨rest, s.transaction⟩ : InsertState ι κ).transaction =
      some t from hf.transaction), ht']
  have hnew : Frame E co.outputDigests none (InsertState.new t') t' := .new (ht' ▸ hentry)
  have hbelow : Frame E co.outputDigests (some t'.digest) ⟨rest, s.transaction⟩ t :=
    { transaction := hf.transaction
      entry := hf.entry
      pending := fun d hd => hf.pending d (by simp [hdeps, hd])
      above_dep := fun a ha => by
        obtain rfl := (Option.some.inj ha).symm.trans ht'
        exact hf.pending _ (by simp [hdeps])
      popped := fun d hd hs he => by
        by_cases hin : d ∈ s.dependencies
        · rw [hdeps] at hin
          simp only [List.mem_append, List.mem_cons] at hin
          rcases hin with hin | rfl | hin
          · exact .inl (hinv.mem_output_of_seen hacyc hf hd he (hpre d hin))
          · exact .inr (congrArg some ht')
          · exact absurd hin hs
        · exact (hf.popped d hd hin he).imp_right (fun h => nomatch h) }
  refine { hinv with
    entries := hE.trans hinv.entries
    perm := ?_
    stack := ?_
    closed := ?_
    ordered := by rw [hO]; exact hinv.ordered
    output_entry := by rw [hO]; exact hinv.output_entry }
  · have hp := hinv.perm
    rw [active_cons hf.transaction] at hp
    rw [hactive, hdone, hN]
    exact (perm_insert_middle hdep).trans hp
  · rw [hdone]
    exact .cons hnew (.cons hbelow hrest)
  · rw [hdone]
    exact hinv.closed

/-- With no unseen dependency left, the top transaction is output and its frame popped. -/
theorem Inv.finish_frame (hacyc : Acyclic (Edge E)) (hinv : Inv E keys co (s :: states))
    {t : TransactionDependencies ι κ} (ht : s.transaction = some t)
    (hall : ∀ x ∈ s.dependencies, x ∉ co.notSeen) : Inv E keys (co.push t.effects) states := by
  obtain ⟨t', hf, hrest⟩ := hinv.top_frame
  have htt : t' = t := Option.some.inj (hf.transaction.symm.trans ht)
  rw [htt] at hf hrest
  have hdigest : t.effects.transactionDigest = t.digest := (hinv.keyed _ t hf.entry).2
  have hfresh := hinv.top_fresh ht
  -- every dependency of the finished transaction is output already
  have hdeps_done : ∀ y, Edge E t.digest y → y ∈ co.outputDigests := by
    rintro y ⟨t₀, ht₀, hy, he⟩
    obtain rfl := Option.some.inj (ht₀.symm.trans hf.entry)
    by_cases hin : y ∈ s.dependencies
    · exact hinv.mem_output_of_seen hacyc hf hy he (hall y hin)
    · exact (hf.popped y hy hin he).resolve_right (fun h => nomatch h)
  refine { hinv with
    perm := ?_
    stack := ?_
    closed := ?_
    ordered := ?_
    output_entry := ?_ }
  · have hp := hinv.perm
    rw [active_cons ht] at hp
    simpa [hdigest] using hp
  · simpa [hdigest] using hrest.release
  · intro x hx y hxy
    rw [outputDigests_push, hdigest] at hx ⊢
    rcases List.mem_append.mp hx with hx | hx
    · exact List.mem_append_left _ (hinv.closed x hx y hxy)
    · obtain rfl := List.mem_singleton.mp hx
      exact List.mem_append_left _ (hdeps_done y hxy)
  · rw [push_output, List.pairwise_append]
    refine ⟨hinv.ordered, List.pairwise_singleton _ _, fun a ha b hb hab => ?_⟩
    obtain rfl := List.mem_singleton.mp hb
    rw [hdigest] at hab
    exact hfresh.1 (hinv.closed _ (List.mem_map_of_mem ha) _ hab)
  · intro e he
    rw [push_output, List.mem_append, List.mem_singleton] at he
    rcases he with he | rfl
    · exact hinv.output_entry e he
    · exact ⟨t, hdigest ▸ hf.entry, rfl⟩

/-- Popping the least unseen key starts a stack of one frame. -/
theorem Inv.start (hinv : Inv E keys co []) {t : TransactionDependencies ι κ}
    {co' : CausalOrder ι κ} (hpop : co.popFirst = some (t, co')) :
    Inv E keys co' [InsertState.new t] ∧ co'.notSeen.length + 1 = co.notSeen.length := by
  obtain ⟨key, rest, hn, hremove⟩ := co.popFirst_eq_some hpop
  obtain ⟨-, hentry, hE, hN, hO⟩ := co.remove_eq_some hremove
  rw [hinv.entries] at hentry
  have ht : t.digest = key := (hinv.keyed key t hentry).1
  have hdone : co'.outputDigests = co.outputDigests := by simp [outputDigests, hO]
  have hframe : Frame E co.outputDigests none (InsertState.new t) t := .new (ht ▸ hentry)
  refine ⟨{ hinv with
    entries := hE.trans hinv.entries
    perm := ?_
    stack := ?_
    closed := by rw [hdone]; exact hinv.closed
    ordered := by rw [hO]; exact hinv.ordered
    output_entry := by rw [hO]; exact hinv.output_entry }, by simp [hN, hn]⟩
  · have hp := hinv.perm
    rw [hn] at hp
    rw [active_cons rfl, hdone, hN, hn, ht]
    simpa using hp
  · rw [hdone]
    exact .cons hframe (.nil _)

theorem insertLoop_push {fuel : Nat} {n s' : InsertState ι κ} {co' : CausalOrder ι κ}
    (h : InsertState.process co s.transaction s.dependencies = .ok (some n, s', co')) :
    insertLoop (fuel + 1) (s :: states) co = insertLoop fuel (n :: s' :: states) co' := by
  simp only [insertLoop, h]
  rfl

theorem insertLoop_pop {fuel : Nat} {s' : InsertState ι κ} {co' : CausalOrder ι κ}
    (h : InsertState.process co s.transaction s.dependencies = .ok (none, s', co')) :
    insertLoop (fuel + 1) (s :: states) co = insertLoop fuel states co' := by
  simp only [insertLoop, h]
  rfl

/-- The insert loop keeps the invariant and ends with an empty stack: the induction is on
the fuel, and each step lowers twice the unseen keys plus the frames by one. -/
theorem insertLoop_inv (hacyc : Acyclic (Edge E)) :
    ∀ (fuel : Nat) (states : List (InsertState ι κ)) (co : CausalOrder ι κ),
      Inv E keys co states → 2 * co.notSeen.length + states.length ≤ fuel →
      ∃ co', insertLoop fuel states co = .ok co' ∧ Inv E keys co' [] ∧
        co'.notSeen.length ≤ co.notSeen.length := by
  intro fuel
  induction fuel with
  | zero =>
    intro states co hinv hfuel
    cases states with
    | nil => exact ⟨co, rfl, hinv, le_rfl⟩
    | cons s states => simp at hfuel
  | succ fuel ih =>
    intro states co hinv hfuel
    cases states with
    | nil => exact ⟨co, rfl, hinv, le_rfl⟩
    | cons s states =>
      obtain ⟨t, hf, -⟩ := hinv.top_frame
      obtain ⟨⟨n, s', co'⟩, hp⟩ := process_ok co t s.dependencies
      rw [← hf.transaction] at hp
      rcases process_cases hp with ⟨pre, dep, rest, t', hdeps, hpre, hremove, rfl, rfl⟩ |
        ⟨hall, t₀, ht₀, rfl, rfl⟩
      · have hinv' := hinv.push_frame hacyc hdeps hpre hremove
        have hlen : co'.notSeen.length + 1 = co.notSeen.length := by
          obtain ⟨hdep, -, -, hN, -⟩ := co.remove_eq_some hremove
          rw [hN, List.length_erase_of_mem hdep]
          have := List.length_pos_of_mem hdep
          omega
        obtain ⟨co'', hrun, hinv'', hle⟩ := ih _ co' hinv' (by simp at hfuel ⊢; omega)
        exact ⟨co'', (insertLoop_push hp).trans hrun, hinv'', by omega⟩
      · have hinv' := hinv.finish_frame hacyc ht₀ hall
        obtain ⟨co'', hrun, hinv'', hle⟩ := ih states _ hinv' (by simp at hfuel ⊢; omega)
        exact ⟨co'', (insertLoop_pop hp).trans hrun, hinv'', by simpa using hle⟩

/-- The outer loop keeps the invariant and ends with every key seen: each round pops a
key, and the insert loop never adds one. -/
theorem causalSortLoop_inv (hacyc : Acyclic (Edge E)) :
    ∀ (fuel : Nat) (co : CausalOrder ι κ), Inv E keys co [] → co.notSeen.length ≤ fuel →
      ∃ co', causalSortLoop fuel co = .ok co' ∧ Inv E keys co' [] ∧ co'.notSeen = [] := by
  intro fuel
  induction fuel with
  | zero =>
    intro co hinv hfuel
    have hnil : co.notSeen = [] := List.length_eq_zero_iff.mp (by omega)
    have hpop : co.popFirst = none := (co.popFirst_eq_none).mpr hnil
    exact ⟨co, by simp [causalSortLoop, hpop], hinv, hnil⟩
  | succ fuel ih =>
    intro co hinv hfuel
    cases hpop : co.popFirst with
    | none => exact ⟨co, by simp [causalSortLoop, hpop], hinv, (co.popFirst_eq_none).mp hpop⟩
    | some r =>
      obtain ⟨t, co₁⟩ := r
      obtain ⟨hinv₁, hlen₁⟩ := hinv.start hpop
      obtain ⟨co₂, hins, hinv₂, hle₂⟩ :=
        insertLoop_inv hacyc (2 * co₁.notSeen.length + 1) [InsertState.new t] co₁ hinv₁ (by simp)
      obtain ⟨co₃, hrun, hinv₃, hnil⟩ := ih co₂ hinv₂ (by omega)
      refine ⟨co₃, ?_, hinv₃, hnil⟩
      simp only [causalSortLoop, hpop]
      exact (Except.bind_eq_ok.mpr ⟨co₂, hins, hrun⟩)

end Steps

section FromVec

variable [LinearOrder ι] [DecidableEq κ]

/-- Within a list of effects, `x` depends on `y`: a dependency of `x`'s effects, or a
reader of a version `x` overwrote. -/
def DependsOn (effects : List (TransactionEffects ι κ)) (x y : ι) : Prop :=
  ∃ ex ∈ effects, ∃ ey ∈ effects, ex.transactionDigest = x ∧ ey.transactionDigest = y ∧
    (y ∈ ex.dependencies ∨ ∃ key, ex.Overwrites key ∧ ey.Reads key)

/-- Effects of one transaction in the list are the same effects. -/
def Consistent (effects : List (TransactionEffects ι κ)) : Prop :=
  ∀ e ∈ effects, ∀ e' ∈ effects, e.transactionDigest = e'.transactionDigest → e = e'

omit [LinearOrder ι] [DecidableEq κ] in
theorem consistent_of_mem_iff {effects effects' : List (TransactionEffects ι κ)}
    (h : ∀ e, e ∈ effects ↔ e ∈ effects') (hc : Consistent effects) : Consistent effects' :=
  fun e he e' he' hd => hc e ((h e).mpr he) e' ((h e').mpr he') hd

theorem fromVec_notSeen (effects : List (TransactionEffects ι κ)) :
    (fromVec effects).notSeen = sortedSet (effects.map (·.transactionDigest)) := by
  simp [fromVec, Function.comp_def]

theorem fromVec_entries_eq_some {effects : List (TransactionEffects ι κ)} {k : ι}
    {t : TransactionDependencies ι κ} (h : (fromVec effects).entries k = some t) :
    ∃ e ∈ effects, e.transactionDigest = k ∧
      t = TransactionDependencies.fromEffects e (RWLockDependencyBuilder.fromEffects effects) := by
  have hmem := List.mem_of_find?_eq_some h
  have hk := List.find?_some h
  simp only [List.mem_reverse, List.mem_map] at hmem
  obtain ⟨e, he, rfl⟩ := hmem
  exact ⟨e, he, of_decide_eq_true hk, rfl⟩

theorem fromVec_entries_isSome {effects : List (TransactionEffects ι κ)} {k : ι} :
    ((fromVec effects).entries k).isSome ↔ ∃ e ∈ effects, e.transactionDigest = k := by
  simp [fromVec, List.find?_isSome]

/-- The state from_vec builds satisfies the invariant, with its keys as the keys. -/
theorem inv_fromVec (effects : List (TransactionEffects ι κ)) :
    Inv (fromVec effects).entries (fromVec effects).notSeen (fromVec effects) [] where
  entries := rfl
  keyed k t h := by
    obtain ⟨e, -, rfl, rfl⟩ := fromVec_entries_eq_some h
    simp
  mem_keys k h := by
    obtain ⟨e, he, rfl⟩ := fromVec_entries_isSome.mp h
    rw [fromVec_notSeen, mem_sortedSet]
    exact List.mem_map_of_mem he
  nodup := by
    rw [fromVec_notSeen]
    exact nodup_sortedSet _
  perm := by simp [outputDigests, fromVec]
  stack := .nil none
  closed := by simp [outputDigests, fromVec]
  ordered := by simp [fromVec]
  output_entry := by simp [fromVec]

/-- With consistent effects, the recorded dependencies of the map are exactly the
dependencies within the list. -/
theorem edge_fromVec_iff {effects : List (TransactionEffects ι κ)} (hc : Consistent effects)
    (x y : ι) : Edge (fromVec effects).entries x y ↔ DependsOn effects x y := by
  constructor
  · rintro ⟨t, ht, hy, hsome⟩
    obtain ⟨ex, hex, rfl, rfl⟩ := fromVec_entries_eq_some ht
    obtain ⟨ey, hey, rfl⟩ := fromVec_entries_isSome.mp hsome
    refine ⟨ex, hex, ey, hey, rfl, rfl, ?_⟩
    rcases (TransactionDependencies.mem_fromEffects_dependencies effects ex _).mp hy with
      h | ⟨key, ⟨e', he', hd', hw⟩, e'', he'', hd'', hr⟩
    · exact .inl h
    · obtain rfl := hc e' he' ex hex hd'
      obtain rfl := hc e'' he'' ey hey hd''
      exact .inr ⟨key, hw, hr⟩
  · rintro ⟨ex, hex, ey, hey, rfl, rfl, hdep⟩
    obtain ⟨t, ht⟩ := Option.isSome_iff_exists.mp (fromVec_entries_isSome.mpr ⟨ex, hex, rfl⟩)
    obtain ⟨ex', hex', hd, rfl⟩ := fromVec_entries_eq_some ht
    obtain rfl := hc ex' hex' ex hex hd
    refine ⟨_, ht, ?_, fromVec_entries_isSome.mpr ⟨ey, hey, rfl⟩⟩
    rw [TransactionDependencies.mem_fromEffects_dependencies]
    rcases hdep with h | ⟨key, hw, hr⟩
    · exact .inl h
    · exact .inr ⟨key, ⟨ex', hex', rfl, hw⟩, ey, hey, rfl, hr⟩

theorem fromVec_eq_of_mem_iff {effects effects' : List (TransactionEffects ι κ)}
    (h : ∀ e, e ∈ effects ↔ e ∈ effects') (hc : Consistent effects) :
    fromVec effects = fromVec effects' := by
  ext1
  · funext k
    cases h₁ : (fromVec effects).entries k with
    | none =>
      cases h₂ : (fromVec effects').entries k with
      | none => rfl
      | some t' =>
        obtain ⟨e', he', hk', -⟩ := fromVec_entries_eq_some h₂
        have := fromVec_entries_isSome.mpr ⟨e', (h e').mpr he', hk'⟩
        simp [h₁] at this
    | some t =>
      obtain ⟨e, he, hk, rfl⟩ := fromVec_entries_eq_some h₁
      obtain ⟨t', h₂⟩ := Option.isSome_iff_exists.mp
        (fromVec_entries_isSome.mpr ⟨e, (h e).mp he, hk⟩)
      obtain ⟨e', he', hk', rfl⟩ := fromVec_entries_eq_some h₂
      rw [h₂, hc e he e' ((h e').mpr he') (hk.trans hk'.symm),
        TransactionDependencies.fromEffects_congr h]
  · rw [fromVec_notSeen, fromVec_notSeen]
    exact sortedSet_eq_of_mem_iff (fun d => by simp [h])
  · rfl

theorem causalSort_eq_of_mem_iff {effects effects' : List (TransactionEffects ι κ)}
    (h : ∀ e, e ∈ effects ↔ e ∈ effects') (hc : Consistent effects) :
    causalSort effects = causalSort effects' := by
  simp only [causalSort, fromVec_eq_of_mem_iff h hc]

/-- The causal sort of consistent effects whose dependencies within the list are acyclic
returns every transaction of the list exactly once, as effects of the list, and never a
transaction before one of its dependencies. -/
theorem causalSort_spec {effects : List (TransactionEffects ι κ)} (hc : Consistent effects)
    (hacyc : Acyclic (DependsOn effects)) :
    ∃ out, causalSort effects = .ok out ∧
      (out.map (·.transactionDigest)).Perm (sortedSet (effects.map (·.transactionDigest))) ∧
      (∀ e ∈ out, e ∈ effects) ∧
      out.Pairwise (fun a b => ¬ DependsOn effects a.transactionDigest b.transactionDigest) := by
  have hedge := edge_fromVec_iff hc
  obtain ⟨co, hrun, hinv, hnil⟩ := causalSortLoop_inv
    (hacyc.mono (fun x y h => (hedge x y).mp h)) _ _ (inv_fromVec effects) le_rfl
  refine ⟨co.output, by simp [causalSort, hrun, intoList], ?_, ?_, ?_⟩
  · have hp := hinv.perm
    rw [hnil, fromVec_notSeen] at hp
    simpa [outputDigests] using hp
  · intro e he
    obtain ⟨t, ht, rfl⟩ := hinv.output_entry e he
    obtain ⟨e', he', -, rfl⟩ := fromVec_entries_eq_some ht
    simpa using he'
  · exact hinv.ordered.imp (fun hab hdep => hab ((hedge _ _).mpr hdep))

end FromVec

end CausalOrder

end Rtd.Checkpoints
