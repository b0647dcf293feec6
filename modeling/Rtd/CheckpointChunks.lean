import Mathlib

/-!
`CheckpointBuilder::split_checkpoint_chunks` (crates/rtd-core/src/checkpoints/mod.rs):
the transactions of a pending checkpoint, each with its effects, its size and its
signatures, are cut greedily into chunks that respect the per-checkpoint limits on the
number of transactions and on the estimated size; a single transaction larger than the
size limit gets a chunk of its own, and no input gives one empty heartbeat chunk.

The BCS sizes of the effects and signatures are parameters: they are byte counts of
values held in memory, so the `usize` sums stay exact, and serialisation of such values
does not fail. The loop body and the final push are stated over any element type, with
the size given beside the element, so that the decisions of the loop are seen to depend
on the sizes only.
-/

set_option autoImplicit false

namespace Rtd.Checkpoints

/-- The BCS sizes the estimate reads: of the effects, of the signatures with their
alias versions, and of the signatures alone. -/
structure SerializedSizes (E G : Type) where
  effects : E → Nat
  signatures : List (G × Option Nat) → Nat
  genericSignatures : List G → Nat

/-- What chunk splitting reads of the builder and of the epoch's protocol config. -/
structure ChunkConfig where
  maxTransactionsPerCheckpoint : Nat
  maxCheckpointSizeBytes : Nat
  addressAliases : Bool

/-- The loop state: the finished chunks, the open chunk and its estimated size. -/
structure ChunkState (α : Type) where
  chunks : List (List α)
  chunk : List α
  chunkSize : Nat

namespace ChunkState

variable {α β : Type} (maxTransactionsPerCheckpoint maxCheckpointSizeBytes : Nat)

/-- One iteration of the loop: roll over to a new chunk when the open one has reached
the count limit or would pass the size limit, unless it is empty, and add the
transaction. -/
def push (s : ChunkState α) (x : α) (size : Nat) : ChunkState α :=
  let s := if s.chunk.length = maxTransactionsPerCheckpoint ∨
      maxCheckpointSizeBytes < s.chunkSize + size then
    (if s.chunk = [] then s else ⟨s.chunks ++ [s.chunk], [], 0⟩)
  else s
  ⟨s.chunks, s.chunk ++ [x], s.chunkSize + size⟩

/-- After the loop: the open chunk is pushed when it holds a transaction, or when there
is no chunk at all, which makes the heartbeat checkpoint. -/
def finish (s : ChunkState α) : List (List α) :=
  if s.chunk ≠ [] ∨ s.chunks = [] then s.chunks ++ [s.chunk] else s.chunks

def map (f : α → β) (s : ChunkState α) : ChunkState β :=
  ⟨s.chunks.map (·.map f), s.chunk.map f, s.chunkSize⟩

variable {maxTransactionsPerCheckpoint maxCheckpointSizeBytes}

/-- The loop decides on sizes and lengths only, so it commutes with any map of the
transactions. -/
theorem push_map (f : α → β) (s : ChunkState α) (x : α) (size : Nat) :
    (s.map f).push maxTransactionsPerCheckpoint maxCheckpointSizeBytes (f x) size =
      (s.push maxTransactionsPerCheckpoint maxCheckpointSizeBytes x size).map f := by
  unfold push map
  by_cases hroll : s.chunk.length = maxTransactionsPerCheckpoint ∨
      maxCheckpointSizeBytes < s.chunkSize + size
  · by_cases hnil : s.chunk = [] <;> simp [hroll, hnil]
  · simp only [List.length_map, if_neg hroll, List.map_append, List.map_cons, List.map_nil]

theorem finish_map (f : α → β) (s : ChunkState α) :
    (s.map f).finish = s.finish.map (·.map f) := by
  unfold finish map
  by_cases h : s.chunk ≠ [] ∨ s.chunks = [] <;> simp_all

theorem flatten_push (s : ChunkState α) (x : α) (size : Nat) :
    (s.push maxTransactionsPerCheckpoint maxCheckpointSizeBytes x size).chunks.flatten ++
        (s.push maxTransactionsPerCheckpoint maxCheckpointSizeBytes x size).chunk =
      s.chunks.flatten ++ s.chunk ++ [x] := by
  unfold push
  split_ifs <;> simp_all

theorem flatten_finish (s : ChunkState α) : s.finish.flatten = s.chunks.flatten ++ s.chunk := by
  unfold finish
  split_ifs with h
  · simp
  · simp_all

variable (maxTransactionsPerCheckpoint maxCheckpointSizeBytes)

/-- What the loop keeps, for transactions whose estimated sizes are given by `size`:
finished chunks are not empty, every chunk keeps both limits, a chunk of two or more
transactions within the size limit, and `chunkSize` is the open chunk's size. -/
structure Inv (size : α → Nat) (s : ChunkState α) : Prop where
  chunks_ne_nil : ∀ c ∈ s.chunks, c ≠ []
  length_le : ∀ c ∈ s.chunk :: s.chunks, c.length ≤ maxTransactionsPerCheckpoint
  size_le : ∀ c ∈ s.chunk :: s.chunks, 2 ≤ c.length →
    (c.map size).sum ≤ maxCheckpointSizeBytes
  chunkSize_eq : s.chunkSize = (s.chunk.map size).sum

variable {maxTransactionsPerCheckpoint maxCheckpointSizeBytes}

theorem inv_init (size : α → Nat) :
    Inv maxTransactionsPerCheckpoint maxCheckpointSizeBytes size ⟨[], [], 0⟩ :=
  ⟨by simp, by simp, by simp, rfl⟩

/-- The transaction goes into a chunk of its own: nothing is checked of its size. -/
theorem inv_push_fresh {size : α → Nat} {s : ChunkState α} (hmax : 1 ≤ maxTransactionsPerCheckpoint)
    (hinv : Inv maxTransactionsPerCheckpoint maxCheckpointSizeBytes size s) (hnil : s.chunk = [])
    (x : α) : Inv maxTransactionsPerCheckpoint maxCheckpointSizeBytes size
      ⟨s.chunks, [x], s.chunkSize + size x⟩ := by
  have hsize : s.chunkSize = 0 := by simp [hinv.chunkSize_eq, hnil]
  refine ⟨hinv.chunks_ne_nil, ?_, ?_, by simp [hsize]⟩
  all_goals simp only [List.mem_cons]; rintro c (rfl | hc)
  · simpa using hmax
  · exact hinv.length_le c (.tail _ hc)
  · simp
  · exact hinv.size_le c (.tail _ hc)

/-- One iteration keeps the invariant, given a count limit of at least one. -/
theorem Inv.push {size : α → Nat} {s : ChunkState α} (hmax : 1 ≤ maxTransactionsPerCheckpoint)
    (hinv : Inv maxTransactionsPerCheckpoint maxCheckpointSizeBytes size s) (x : α) :
    Inv maxTransactionsPerCheckpoint maxCheckpointSizeBytes size
      (s.push maxTransactionsPerCheckpoint maxCheckpointSizeBytes x (size x)) := by
  unfold ChunkState.push
  dsimp only
  split_ifs with hroll hnil
  · simpa only [hnil, List.nil_append] using inv_push_fresh hmax hinv hnil x
  · -- the open chunk is finished as it stands, and the transaction opens the next one
    have hmem : ∀ c ∈ ([] : List α) :: (s.chunks ++ [s.chunk]), c = [] ∨ c ∈ s.chunk :: s.chunks := by
      intro c hc
      simp only [List.mem_cons, List.mem_append, List.not_mem_nil] at hc ⊢
      tauto
    have hfin : Inv maxTransactionsPerCheckpoint maxCheckpointSizeBytes size
        ⟨s.chunks ++ [s.chunk], [], 0⟩ := by
      refine ⟨fun c hc => ?_, fun c hc => ?_, fun c hc => ?_, rfl⟩
      · rcases List.mem_append.1 hc with hc | hc
        · exact hinv.chunks_ne_nil c hc
        · rwa [List.mem_singleton.1 hc]
      · rcases hmem c hc with rfl | hc
        · simp
        · exact hinv.length_le c hc
      · rcases hmem c hc with rfl | hc
        · simp
        · exact hinv.size_le c hc
    exact inv_push_fresh hmax hfin rfl x
  · -- no roll-over: below the count limit and within the size limit
    simp only [not_or, Nat.not_lt] at hroll
    refine ⟨hinv.chunks_ne_nil, ?_, ?_, by simp [hinv.chunkSize_eq]⟩
    all_goals simp only [List.mem_cons]; rintro c (rfl | hc)
    · have := hinv.length_le _ (.head _)
      simp only [List.length_append, List.length_singleton]
      omega
    · exact hinv.length_le c (.tail _ hc)
    · intro _
      simpa [hinv.chunkSize_eq] using hroll.2
    · exact hinv.size_le c (.tail _ hc)

variable (maxTransactionsPerCheckpoint maxCheckpointSizeBytes)

/-- The loop over transactions that carry their own sizes. -/
def run (size : α → Nat) (xs : List α) (s : ChunkState α) : ChunkState α :=
  xs.foldl (fun s x => s.push maxTransactionsPerCheckpoint maxCheckpointSizeBytes x (size x)) s

variable {maxTransactionsPerCheckpoint maxCheckpointSizeBytes}

theorem run_map (f : α → β) (size : α → Nat) (xs : List α) (s : ChunkState α) :
    xs.foldl (fun s x => s.push maxTransactionsPerCheckpoint maxCheckpointSizeBytes (f x) (size x))
        (s.map f) =
      (run maxTransactionsPerCheckpoint maxCheckpointSizeBytes size xs s).map f := by
  induction xs generalizing s with
  | nil => rfl
  | cons x xs ih => simp only [List.foldl_cons, push_map, ih, run]

theorem Inv.run {size : α → Nat} {s : ChunkState α} (hmax : 1 ≤ maxTransactionsPerCheckpoint)
    (hinv : Inv maxTransactionsPerCheckpoint maxCheckpointSizeBytes size s) (xs : List α) :
    Inv maxTransactionsPerCheckpoint maxCheckpointSizeBytes size
      (ChunkState.run maxTransactionsPerCheckpoint maxCheckpointSizeBytes size xs s) := by
  induction xs generalizing s with
  | nil => exact hinv
  | cons x xs ih => exact ih (hinv.push hmax x)

theorem flatten_run (size : α → Nat) (xs : List α) (s : ChunkState α) :
    (run maxTransactionsPerCheckpoint maxCheckpointSizeBytes size xs s).chunks.flatten ++
        (run maxTransactionsPerCheckpoint maxCheckpointSizeBytes size xs s).chunk =
      s.chunks.flatten ++ s.chunk ++ xs := by
  induction xs generalizing s with
  | nil => simp [run]
  | cons x xs ih =>
    have := ih (s.push maxTransactionsPerCheckpoint maxCheckpointSizeBytes x (size x))
    simp only [run, List.foldl_cons] at this ⊢
    rw [this, flatten_push]
    simp

/-- What the final push keeps: at least one chunk, an empty one only for no input, and
every chunk within the limits. -/
theorem Inv.finish {size : α → Nat} {s : ChunkState α}
    (hinv : Inv maxTransactionsPerCheckpoint maxCheckpointSizeBytes size s) :
    s.finish ≠ [] ∧ (∀ c ∈ s.finish, c = [] → s.chunks.flatten ++ s.chunk = []) ∧
      ∀ c ∈ s.finish, c.length ≤ maxTransactionsPerCheckpoint ∧
        (2 ≤ c.length → (c.map size).sum ≤ maxCheckpointSizeBytes) := by
  have hmem : ∀ c ∈ s.finish, c ∈ s.chunk :: s.chunks := by
    unfold ChunkState.finish
    split_ifs <;> simp_all [or_comm]
  refine ⟨?_, fun c hc hnil => ?_, fun c hc =>
    ⟨hinv.length_le c (hmem c hc), hinv.size_le c (hmem c hc)⟩⟩
  · unfold ChunkState.finish
    split_ifs with h
    · simp
    · simp_all
  · -- an empty chunk is never finished by the loop, so it is the open one, pushed only
    -- when there is no chunk at all
    rcases List.mem_cons.1 (hmem c hc) with rfl | hc'
    · unfold ChunkState.finish at hc
      split_ifs at hc with h
      · rcases h with h | h
        · exact absurd hnil h
        · simp [h, hnil]
      · exact absurd hnil (hinv.chunks_ne_nil _ hc)
    · exact absurd hnil (hinv.chunks_ne_nil c hc')

end ChunkState

section Split

variable {E G : Type} (c : ChunkConfig) (sizes : SerializedSizes E G)

/-- The signatures' size: with address aliases each signature is serialised with its
alias version, and otherwise the signatures alone. -/
def signaturesSize (signatures : List (G × Option Nat)) : Nat :=
  if c.addressAliases then sizes.signatures signatures
  else sizes.genericSignatures (signatures.map Prod.fst)

/-- The estimated size of one transaction, as the loop computes it. -/
def estimatedSize (t : (E × Nat) × List (G × Option Nat)) : Nat :=
  t.1.2 + sizes.effects t.1.1 + signaturesSize c sizes t.2

/-- `CheckpointBuilder::split_checkpoint_chunks`: the loop over the effects and sizes
zipped with the signatures, and the final push. -/
def splitCheckpointChunks (effectsAndTransactionSizes : List (E × Nat))
    (signatures : List (List (G × Option Nat))) : List (List (E × List (G × Option Nat))) :=
  ((effectsAndTransactionSizes.zip signatures).foldl
    (fun (s : ChunkState _) t => s.push c.maxTransactionsPerCheckpoint c.maxCheckpointSizeBytes (t.1.1, t.2)
      (estimatedSize c sizes t))
    ⟨[], [], 0⟩).finish

/-- Checkpoint splitting neither loses, duplicates nor reorders transactions and keeps
the limits: the chunks cut the input into consecutive pieces, at least one, empty only
for no input, each of at most the count limit and, with two or more transactions, of
estimated size within the size limit. -/
theorem splitCheckpointChunks_spec (hmax : 1 ≤ c.maxTransactionsPerCheckpoint)
    (txs : List ((E × Nat) × List (G × Option Nat))) :
    splitCheckpointChunks c sizes (txs.map Prod.fst) (txs.map Prod.snd) ≠ [] ∧
      (splitCheckpointChunks c sizes (txs.map Prod.fst) (txs.map Prod.snd)).flatten =
        txs.map (fun t => (t.1.1, t.2)) ∧
      ∃ parts : List (List ((E × Nat) × List (G × Option Nat))),
        parts.flatten = txs ∧
        splitCheckpointChunks c sizes (txs.map Prod.fst) (txs.map Prod.snd) =
          parts.map (·.map (fun t => (t.1.1, t.2))) ∧
        (∀ p ∈ parts, p = [] → txs = []) ∧
        ∀ p ∈ parts, p.length ≤ c.maxTransactionsPerCheckpoint ∧
          (2 ≤ p.length → (p.map (estimatedSize c sizes)).sum ≤ c.maxCheckpointSizeBytes) := by
  -- the parts are what the same loop makes of the whole transactions
  set parts := (ChunkState.run c.maxTransactionsPerCheckpoint c.maxCheckpointSizeBytes
    (estimatedSize c sizes) txs ⟨[], [], 0⟩).finish
  have hzip : (txs.map Prod.fst).zip (txs.map Prod.snd) = txs := by
    rw [← List.unzip_fst, ← List.unzip_snd, List.zip_unzip]
  have hsplit : splitCheckpointChunks c sizes (txs.map Prod.fst) (txs.map Prod.snd) =
      parts.map (·.map (fun t => (t.1.1, t.2))) := by
    unfold splitCheckpointChunks
    rw [hzip, ← ChunkState.finish_map]
    exact congrArg ChunkState.finish (ChunkState.run_map _ _ txs ⟨[], [], 0⟩)
  have hflat : parts.flatten = txs := by
    rw [ChunkState.flatten_finish, ChunkState.flatten_run]
    simp
  obtain ⟨hne, hnil, hlim⟩ := ((ChunkState.inv_init (estimatedSize c sizes)).run hmax txs).finish
  refine ⟨by simpa [hsplit] using hne, ?_, parts, hflat, hsplit, ?_, hlim⟩
  · rw [hsplit, ← List.map_flatten, hflat]
  · intro p hp hp'
    have := hnil p hp hp'
    rwa [ChunkState.flatten_run] at this

end Split

/-! Four transactions under a limit of two transactions and ten bytes; the second is
larger than the limit and gets a chunk of its own. -/

namespace OversizedTransaction

def config : ChunkConfig := ⟨2, 10, false⟩

def sizes : SerializedSizes Nat Nat := ⟨fun _ => 1, fun _ => 0, List.length⟩

def txs : List ((Nat × Nat) × List (Nat × Option Nat)) :=
  [((0, 3), [(0, none)]), ((1, 20), []), ((2, 2), []), ((3, 2), [])]

example : splitCheckpointChunks config sizes (txs.map Prod.fst) (txs.map Prod.snd) =
    [[(0, [(0, none)])], [(1, [])], [(2, []), (3, [])]] := by decide

theorem splitCheckpointChunks_spec_oversized :
    1 ≤ config.maxTransactionsPerCheckpoint ∧
      (splitCheckpointChunks config sizes (txs.map Prod.fst) (txs.map Prod.snd) ≠ [] ∧
        (splitCheckpointChunks config sizes (txs.map Prod.fst) (txs.map Prod.snd)).flatten =
          txs.map (fun t => (t.1.1, t.2)) ∧
        ∃ parts : List (List ((Nat × Nat) × List (Nat × Option Nat))),
          parts.flatten = txs ∧
          splitCheckpointChunks config sizes (txs.map Prod.fst) (txs.map Prod.snd) =
            parts.map (·.map (fun t => (t.1.1, t.2))) ∧
          (∀ p ∈ parts, p = [] → txs = []) ∧
          ∀ p ∈ parts, p.length ≤ config.maxTransactionsPerCheckpoint ∧
            (2 ≤ p.length →
              (p.map (estimatedSize config sizes)).sum ≤ config.maxCheckpointSizeBytes)) :=
  ⟨by decide, splitCheckpointChunks_spec config sizes (by decide) txs⟩

end OversizedTransaction

end Rtd.Checkpoints
