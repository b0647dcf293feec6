import Rtd.TransactionCertifier
import Rtd.BaseCommitter
import Rtd.Except
import Rtd.MachineWord
import Mathlib

/-!
`CommitFinalizer` (`consensus/core/src/commit_finalizer.rs`): commits are buffered until
every transaction of their blocks is finalized or rejected, and are output in commit order.

Direct finalization takes each block's reject votes from the transaction certifier: a
transaction without reject votes is final, one rejected by a quorum is rejected, and the
others stay pending. Pending transactions of the earliest commit are then finalized
indirectly, by a traversal of the blocks of later commits that count as accept votes, or
rejected once a commit enough leader rounds later arrives.

The transaction indices in the reject votes are those the voting blocks named: neither
block verification nor the certifier checks them against the block they vote on.

Metrics and their hostnames are left out, but the subtractions that two metrics compute are
kept: they panic in a build with overflow checks and wrap in a release build, as the
context's `overflowChecks` says. The traversal of one pending block runs in a
task of its own; a panic in any task is a panic of the call, and the shutdown of the task
pool is not modelled. The certifier state and the GC depth are arguments of each call.
-/

set_option autoImplicit false

namespace Rtd

/-- `CommittedSubDag`, with the fields the finalizer reads and writes. `commitIndex` is the
index of its `commit_ref`. -/
structure CommittedSubDag where
  leader : BlockRef
  blocks : List VerifiedBlock
  commitIndex : Nat
  decidedWithLocalBlocks : Bool
  rejectedTransactionsByBlock : OrderedMap BlockRef (List Nat)
  deriving DecidableEq

/-- The commit without the rejections that finalization records in it. -/
def CommittedSubDag.base (d : CommittedSubDag) : CommittedSubDag :=
  { d with rejectedTransactionsByBlock := OrderedMap.empty }

namespace CommitFinalizer

/-- `INDIRECT_REJECT_DEPTH`. -/
def indirectRejectDepth : Nat := 3

/-- What the finalizer reads of its context: the committee, and from the protocol config the
GC depth and whether accept votes that GC may have dropped are skipped. -/
structure Context where
  committee : Committee
  gcDepth : Nat
  skipGcedAcceptVotes : Bool
  /-- Whether the build checks arithmetic for overflow, as the dev, test and simulator
  profiles do; the release profile does not, and wraps. -/
  overflowChecks : Bool

/-- The panics of `process_commit`: its assertions and unwraps, and a subtraction that
overflows. -/
inductive Panic where
  | commitIndexMismatch (expected actual : Nat)
  | emptyCommit
  | noPendingCommit
  | missingCommit (index : Nat)
  | noPendingBlocks
  | pendingBlocksRemain
  | missingVoteInfo (block : BlockRef)
  | missingRejectStake (block : BlockRef) (index : Nat)
  | missingBlock (block : BlockRef)
  | noAncestor (block : BlockRef)
  | pendingAfterCurrent (pending current : Nat)
  | missingGcRound (pending current : Nat)
  | gcRoundIndexMismatch (commitIndex current : Nat)
  | subtractionOverflow
  deriving DecidableEq, Repr

/-- Unsigned subtraction of `w` bits as the build runs it: with overflow checks it panics on
an underflow, and a release build wraps. -/
def subChecked (overflowChecks : Bool) (w a b : Nat) : Except Panic Nat :=
  if overflowChecks then
    match MachineWord.checkedSub a b with
    | some r => .ok r
    | none => .error .subtractionOverflow
  else .ok ((a + 2 ^ w - b) % 2 ^ w)

/-- `CommitState`: a buffered commit, the number of transactions of each block not yet
finalized directly, and the pending and rejected transactions of each block. -/
structure CommitState where
  commit : CommittedSubDag
  pendingBlocks : OrderedMap BlockRef Nat
  pendingTransactions : OrderedMap BlockRef (OrderedMap Nat Unit)
  rejectedTransactions : OrderedMap BlockRef (OrderedMap Nat Unit)
  deriving DecidableEq

/-- `BlockState`: a block of a buffered commit, with the blocks that link to it, its reject
votes, and the later committed blocks of its author that descend from it. -/
structure BlockState where
  block : VerifiedBlock
  children : OrderedMap BlockRef Unit
  rejectVotes : OrderedMap BlockRef (OrderedMap Nat Unit)
  originDescendants : List BlockRef
  commitIndex : Nat
  deriving DecidableEq

end CommitFinalizer

/-- `CommitFinalizer`: the last commit index processed, the buffered commits from the
earliest, and the state of their blocks. -/
structure CommitFinalizer where
  lastProcessedCommit : Option Nat
  pendingCommits : List CommitFinalizer.CommitState
  blocks : OrderedMap BlockRef CommitFinalizer.BlockState
  deriving DecidableEq

namespace CommitFinalizer

/-- `CommitFinalizer::new`. -/
def new : CommitFinalizer := ⟨none, [], OrderedMap.empty⟩

section State

/-- `CommitState::new`: every block of the commit pending, with its number of transactions. -/
def CommitState.new (commit : CommittedSubDag) : Except Panic CommitState :=
  let pendingBlocks := commit.blocks.foldl
    (fun m b => m.insert b.reference b.numTransactions) OrderedMap.empty
  if pendingBlocks.entries.isEmpty then .error .emptyCommit
  else .ok ⟨commit, pendingBlocks, OrderedMap.empty, OrderedMap.empty⟩

/-- `pending_transactions.entry(block_ref).or_default().insert(index)`. -/
def CommitState.insertPending (cs : CommitState) (blockRef : BlockRef) (index : Nat) :
    CommitState :=
  { cs with
    pendingTransactions := cs.pendingTransactions.insert blockRef
      ((cs.pendingTransactions.entry blockRef OrderedMap.empty).insert index ⟨⟩) }

/-- `rejected_transactions.entry(block_ref).or_default().extend(indices)`. -/
def CommitState.extendRejected (cs : CommitState) (blockRef : BlockRef) (indices : List Nat) :
    CommitState :=
  { cs with
    rejectedTransactions := cs.rejectedTransactions.insert blockRef
      (indices.foldl (fun set i => set.insert i ⟨⟩)
        (cs.rejectedTransactions.entry blockRef OrderedMap.empty)) }

/-- `CommitState::remove_pending_transactions`: the block's entry is removed once empty. -/
def CommitState.removePendingTransactions (cs : CommitState) (blockRef : BlockRef)
    (transactions : List Nat) : CommitState :=
  match cs.pendingTransactions.get? blockRef with
  | none => cs
  | some pending =>
    let pending := transactions.foldl OrderedMap.erase pending
    if pending.entries.isEmpty then
      { cs with pendingTransactions := cs.pendingTransactions.erase blockRef }
    else { cs with pendingTransactions := cs.pendingTransactions.insert blockRef pending }

/-- Neither pending blocks nor pending transactions: the commit can be output. -/
def CommitState.isFinalized (cs : CommitState) : Bool :=
  cs.pendingBlocks.entries.isEmpty && cs.pendingTransactions.entries.isEmpty

/-- The commit as `pop_finalized_commits` outputs it, with the rejected transactions of each
block in index order. -/
def CommitState.finalizedCommit (cs : CommitState) : CommittedSubDag :=
  { cs.commit with
    rejectedTransactionsByBlock := cs.rejectedTransactions.entries.foldl
      (fun m e => m.insert e.1 e.2.keys) cs.commit.rejectedTransactionsByBlock }

/-- `BlockState::new`: the block's reject votes by the block they vote on, the last vote
list of a block counting where the block carries several. -/
def BlockState.new (block : VerifiedBlock) (commitIndex : Nat) : BlockState where
  block := block
  children := OrderedMap.empty
  rejectVotes := block.transactionVotes.foldl
    (fun m v => m.insert v.blockRef (OrderedMap.ofKeys v.rejects)) OrderedMap.empty
  originDescendants := []
  commitIndex := commitIndex

end State

/-! ### Direct finalization -/

section Direct

variable (ctx : Context) (certifier : TransactionCertifier.CertifierState)

/-- The loop of `try_direct_finalize_commit` over the reject votes on one block: a
transaction rejected by less than a quorum is pending, the others are rejected. -/
def finalizeBlockVotes (blockRef : BlockRef) (rejectVotes : List (Nat × Nat))
    (cs : CommitState) : CommitState :=
  rejectVotes.foldl (fun cs vote =>
    if vote.2 < ctx.committee.quorumThreshold.toNat then cs.insertPending blockRef vote.1
    else cs.extendRejected blockRef [vote.1]) cs

/-- The loop of `try_direct_finalize_commit` over the pending blocks of the commit. -/
def directFinalizeBlocks : List (BlockRef × Nat) → CommitState → Except Panic CommitState
  | [], cs => .ok cs
  | (blockRef, numTransactions) :: rest, cs =>
    match certifier.getRejectVotes blockRef with
    | none => .error (.missingVoteInfo blockRef)
    | some rejectVotes => do
      -- the metric `num_transactions - reject_votes.len()`, of `usize`
      let _ ← subChecked ctx.overflowChecks 64 numTransactions rejectVotes.length
      directFinalizeBlocks rest (finalizeBlockVotes ctx blockRef rejectVotes cs)

/-- `CommitFinalizer::try_direct_finalize_commit`. -/
def tryDirectFinalizeCommit (s : CommitFinalizer) (index : Nat) :
    Except Panic CommitFinalizer :=
  match s.pendingCommits[index]? with
  | none => .error (.missingCommit index)
  | some cs =>
    if cs.pendingBlocks.entries.isEmpty then .error .noPendingBlocks
    else do
      let cs ← directFinalizeBlocks ctx certifier cs.pendingBlocks.entries
        { cs with pendingBlocks := OrderedMap.empty }
      pure { s with pendingCommits := s.pendingCommits.set index cs }

/-- The direct finalization loop of `process_commit` over the indices of the buffered
commits: a commit finalized directly already is passed over, and the loop stops at a
commit decided from remote blocks less than a wave below the last commit. -/
def directFinalizeCommits (s : CommitFinalizer) : List Nat → Except Panic CommitFinalizer
  | [] => .ok s
  | i :: rest =>
    match s.pendingCommits[i]? with
    | none => .error (.missingCommit i)
    | some cs =>
      if cs.pendingBlocks.entries.isEmpty then directFinalizeCommits s rest
      else if !cs.commit.decidedWithLocalBlocks then
        match s.pendingCommits.getLast? with
        | none => .error .noPendingCommit
        | some last =>
          if last.commit.leader.round < cs.commit.leader.round + defaultWaveLength then .ok s
          else do
            let s ← tryDirectFinalizeCommit ctx certifier s i
            directFinalizeCommits s rest
      else do
        let s ← tryDirectFinalizeCommit ctx certifier s i
        directFinalizeCommits s rest

end Direct

/-! ### The block graph of the buffered commits -/

section Links

/-- Blocks by ascending round, blocks of one round in their order: a stable sort. -/
def sortByRound (blocks : List VerifiedBlock) : List VerifiedBlock :=
  blocks.insertionSort fun a b => a.round ≤ b.round

/-- One block of `link_blocks_in_last_commit`: its ancestors still buffered link to it, and
its state is created unless it exists. -/
def linkBlock (commitIndex : Nat) (blocks : OrderedMap BlockRef BlockState)
    (block : VerifiedBlock) : OrderedMap BlockRef BlockState :=
  let blockRef := block.reference
  let blocks := block.ancestors.foldl (fun m ancestor =>
    match m.get? ancestor with
    | none => m
    | some st => m.insert ancestor { st with children := st.children.insert blockRef ⟨⟩ })
    blocks
  if blocks.contains blockRef then blocks
  else blocks.insert blockRef (BlockState.new block commitIndex)

/-- `CommitFinalizer::link_blocks_in_last_commit`. -/
def linkBlocksInLastCommit (s : CommitFinalizer) : Except Panic CommitFinalizer :=
  match s.pendingCommits.getLast? with
  | none => .error .noPendingCommit
  | some cs =>
    .ok { s with
      blocks := (sortByRound cs.commit.blocks).foldl (linkBlock cs.commit.commitIndex) s.blocks }

/-- The loop of `append_origin_descendants_from_last_commit` down the first ancestors of a
committed block while they are its author's: each one buffered records the block as an
origin descendant. The fuel bounds the chain by the number of buffered blocks. -/
def appendOriginDescendant (committed : BlockRef) :
    Nat → BlockRef → OrderedMap BlockRef BlockState →
      Except Panic (OrderedMap BlockRef BlockState)
  | 0, _, blocks => .ok blocks
  | fuel + 1, originAncestor, blocks =>
    if originAncestor.author ≠ committed.author then .ok blocks
    else match blocks.get? originAncestor with
      | none => .ok blocks
      | some st =>
        let blocks := blocks.insert originAncestor
          { st with originDescendants := st.originDescendants ++ [committed] }
        match st.block.ancestors.head? with
        | none => .error (.noAncestor originAncestor)
        | some next => appendOriginDescendant committed fuel next blocks

/-- `CommitFinalizer::append_origin_descendants_from_last_commit`. -/
def appendOriginDescendantsFromLastCommit (s : CommitFinalizer) :
    Except Panic CommitFinalizer :=
  match s.pendingCommits.getLast? with
  | none => .error .noPendingCommit
  | some cs => do
    let blocks ← (sortByRound cs.commit.blocks).foldlM (fun blocks committed =>
      let committedRef := committed.reference
      match blocks.get? committedRef with
      | none => .error (.missingBlock committedRef)
      | some st =>
        match st.block.ancestors.head? with
        | none => .error (.noAncestor committedRef)
        | some origin =>
          appendOriginDescendant committedRef (blocks.entries.length + 1) origin blocks)
      s.blocks
    pure { s with blocks }

end Links

/-! ### Indirect finalization -/

section Indirect

variable (ctx : Context)

/-- The GC round after each buffered commit: `calculate_gc_round` of its leader round. -/
def gcRounds (pending : List CommitState) : List (Nat × Nat) :=
  pending.map fun cs => (cs.commit.commitIndex, cs.commit.leader.round - ctx.gcDepth)

/-- `CommitFinalizer::gced_transaction_votes_for_pending_block`: whether the proposer of a
block of a later commit may have GC'ed the pending block, by the GC round of the commit
before the block's. -/
def gcedTransactionVotesForPendingBlock (gcRounds : List (Nat × Nat))
    (pendingBlockRound pendingCommitIndex currentCommitIndex : Nat) : Except Panic Bool :=
  if currentCommitIndex < pendingCommitIndex then
    .error (.pendingAfterCurrent pendingCommitIndex currentCommitIndex)
  else if pendingCommitIndex = currentCommitIndex then .ok false
  else match gcRounds[currentCommitIndex - 1 - pendingCommitIndex]? with
    | none => .error (.missingGcRound pendingCommitIndex currentCommitIndex)
    | some (commitIndex, gcRound) =>
      if commitIndex ≠ currentCommitIndex - 1 then
        .error (.gcRoundIndexMismatch commitIndex currentCommitIndex)
      else .ok (decide (pendingBlockRound ≤ gcRound))

/-- The traversal of `try_indirect_finalize_pending_transactions_in_block`: the blocks to
visit, earliest round first, those visited and those whose votes are ignored, the accept
votes on the transactions not yet finalized, and those finalized. -/
structure Traversal where
  toVisit : OrderedMap BlockRef Unit
  visited : Finset BlockRef
  ignored : Finset BlockRef
  acceptVotes : OrderedMap Nat StakeAggregator
  finalized : List Nat

/-- The implicit accept vote of `author` on a pending transaction it does not reject: the
aggregator after the vote and whether it reached a quorum. -/
def countAcceptVote (author : Nat) (rejects : OrderedMap Nat Unit) (index : Nat)
    (agg : StakeAggregator) : StakeAggregator × Bool :=
  if rejects.contains index then (agg, false) else agg.add .quorum author ctx.committee

/-- `to_visit_blocks.extend` with the children not visited. -/
def extendToVisit (toVisit children : OrderedMap BlockRef Unit) (visited : Finset BlockRef) :
    OrderedMap BlockRef Unit :=
  (children.keys.filter (· ∉ visited)).foldl (fun m b => m.insert b ⟨⟩) toVisit

variable (blocks : OrderedMap BlockRef BlockState) (gcRounds : List (Nat × Nat))
  (pendingBlockRef : BlockRef) (pendingCommitIndex : Nat)

/-- The loop of `try_indirect_finalize_pending_transactions_in_block`. Every block it
visits is a buffered block not visited before, so one more step than there are buffered
blocks is enough fuel. -/
def visitBlocks : Nat → Traversal → Except Panic (List Nat)
  | 0, t => .ok t.finalized
  | fuel + 1, t =>
    match t.toVisit.popFirst with
    | none => .ok t.finalized
    | some ((curr, _), toVisit) =>
      if curr ∈ t.visited then visitBlocks fuel { t with toVisit }
      else
        let visited := insert curr t.visited
        match blocks.get? curr with
        | none => .error (.missingBlock curr)
        | some st => do
          let votesGced ← gcedTransactionVotesForPendingBlock gcRounds pendingBlockRef.round
            pendingCommitIndex st.commitIndex
          let toVisit' := extendToVisit toVisit st.children visited
          if curr ∈ t.ignored then visitBlocks fuel { t with toVisit := toVisit', visited }
          else
            let ignored := insert curr t.ignored ∪ st.originDescendants.toFinset
            -- a skipped block does not pass the traversal on to its children
            if ctx.skipGcedAcceptVotes && votesGced then
              visitBlocks fuel { t with toVisit, visited, ignored }
            else
              let vote := countAcceptVote ctx curr.author
                (st.rejectVotes.entry pendingBlockRef OrderedMap.empty)
              let newlyFinalized := t.acceptVotes.entries.filterMap fun e =>
                if (vote e.1 e.2).2 then some e.1 else none
              let acceptVotes := t.acceptVotes.filterMap fun i agg =>
                if (vote i agg).2 then none else some (vote i agg).1
              let finalized := t.finalized ++ newlyFinalized
              if acceptVotes.entries.isEmpty then .ok finalized
              else visitBlocks fuel ⟨toVisit', visited, ignored, acceptVotes, finalized⟩

/-- `CommitFinalizer::try_indirect_finalize_pending_transactions_in_block`: the pending
transactions of the block that the blocks reachable from it by child links accept. -/
def tryIndirectFinalizePendingTransactionsInBlock (pendingTransactions : OrderedMap Nat Unit) :
    Except Panic (List Nat) :=
  if pendingTransactions.entries.isEmpty then .ok []
  else match blocks.get? pendingBlockRef with
    | none => .error (.missingBlock pendingBlockRef)
    | some st =>
      let acceptVotes := pendingTransactions.keys.foldl
        (fun m i => m.insert i StakeAggregator.new) OrderedMap.empty
      visitBlocks ctx blocks gcRounds pendingBlockRef st.commitIndex (blocks.entries.length + 1)
        ⟨st.children, ∅, ∅, acceptVotes, []⟩

end Indirect

section FirstCommit

variable (ctx : Context) (certifier : TransactionCertifier.CertifierState)

/-- The pending transactions of one block that a quorum now rejects, for
`check_pending_transactions_in_first_commit`. -/
def lateRejected (blockRef : BlockRef) (pending : OrderedMap Nat Unit) :
    Except Panic (List Nat) :=
  match certifier.getRejectVotes blockRef with
  | none => .error (.missingVoteInfo blockRef)
  | some rejectVotes => pending.keys.filterMapM fun index =>
    match rejectVotes.lookup index with
    | none => .error (.missingRejectStake blockRef index)
    | some stake => .ok (if stake < ctx.committee.quorumThreshold.toNat then none else some index)

/-- `CommitFinalizer::check_pending_transactions_in_first_commit`. -/
def checkPendingTransactionsInFirstCommit (s : CommitFinalizer) :
    Except Panic CommitFinalizer :=
  match s.pendingCommits with
  | [] => .error .noPendingCommit
  | first :: rest => do
    let all ← first.pendingTransactions.entries.mapM fun e => do
      let rejected ← lateRejected ctx certifier e.1 e.2
      pure (e.1, rejected)
    let first := (all.filter fun r => !r.2.isEmpty).foldl
      (fun cs r => (cs.removePendingTransactions r.1 r.2).extendRejected r.1 r.2) first
    pure { s with pendingCommits := first :: rest }

/-- `CommitFinalizer::try_indirect_finalize_pending_transactions_in_first_commit`. -/
def tryIndirectFinalizePendingTransactionsInFirstCommit (s : CommitFinalizer) :
    Except Panic CommitFinalizer :=
  match s.pendingCommits with
  | [] => .error .noPendingCommit
  | first :: rest => do
    let results ← first.pendingTransactions.entries.mapM fun e => do
      let finalized ← tryIndirectFinalizePendingTransactionsInBlock ctx s.blocks
        (gcRounds ctx s.pendingCommits) e.1 e.2
      pure (e.1, finalized)
    let first := (results.filter fun r => !r.2.isEmpty).foldl
      (fun cs r => cs.removePendingTransactions r.1 r.2) first
    pure { s with pendingCommits := first :: rest }

/-- `CommitFinalizer::try_indirect_reject_pending_transactions_in_first_commit`: once the
last commit's leader is `INDIRECT_REJECT_DEPTH` rounds above, what is still pending is
rejected. -/
def tryIndirectRejectPendingTransactionsInFirstCommit (s : CommitFinalizer) :
    Except Panic CommitFinalizer :=
  match s.pendingCommits, s.pendingCommits.getLast? with
  | first :: rest, some last =>
    if first.commit.leader.round + indirectRejectDepth ≤ last.commit.leader.round then
      if !first.pendingBlocks.entries.isEmpty then .error .pendingBlocksRemain
      else
        let first := first.pendingTransactions.entries.foldl
          (fun cs e => cs.extendRejected e.1 e.2.keys)
          { first with pendingTransactions := OrderedMap.empty }
        .ok { s with pendingCommits := first :: rest }
    else .ok s
  | _, _ => .error .noPendingCommit

/-- `CommitFinalizer::try_indirect_finalize_first_commit`. -/
def tryIndirectFinalizeFirstCommit (s : CommitFinalizer) : Except Panic CommitFinalizer :=
  match s.pendingCommits with
  | [] => .error .noPendingCommit
  | first :: _ =>
    if !first.pendingBlocks.entries.isEmpty then .error .pendingBlocksRemain
    else do
      let s ← checkPendingTransactionsInFirstCommit ctx certifier s
      let s ← tryIndirectFinalizePendingTransactionsInFirstCommit ctx s
      tryIndirectRejectPendingTransactionsInFirstCommit s

end FirstCommit

/-! ### Output -/

section Pop

/-- The metric `round_delay`: the last buffered leader round less the output commit's, a
`u32` subtraction. -/
def roundDelay (overflowChecks : Bool) (rest : List CommitState) (commit : CommittedSubDag) :
    Except Panic Nat :=
  match rest.getLast? with
  | none => .ok 0
  | some last => subChecked overflowChecks 32 last.commit.leader.round commit.leader.round

/-- The loop of `pop_finalized_commits`: the finalized commits at the front are output, and
their blocks leave the block graph. -/
def popFinalized (overflowChecks : Bool) : List CommitState → OrderedMap BlockRef BlockState →
    Except Panic (List CommittedSubDag × List CommitState × OrderedMap BlockRef BlockState)
  | [], blocks => .ok ([], [], blocks)
  | cs :: rest, blocks =>
    if !cs.isFinalized then .ok ([], cs :: rest, blocks)
    else do
      let commit := cs.finalizedCommit
      let blocks := commit.blocks.foldl (fun m b => m.erase b.reference) blocks
      let _ ← roundDelay overflowChecks rest commit
      let r ← popFinalized overflowChecks rest blocks
      pure (commit :: r.1, r.2)

/-- `CommitFinalizer::pop_finalized_commits`. -/
def popFinalizedCommits (overflowChecks : Bool) (s : CommitFinalizer) :
    Except Panic (List CommittedSubDag × CommitFinalizer) := do
  let r ← popFinalized overflowChecks s.pendingCommits s.blocks
  pure (r.1, { s with pendingCommits := r.2.1, blocks := r.2.2 })

end Pop

/-! ### Processing a commit -/

section Process

variable (ctx : Context) (certifier : TransactionCertifier.CertifierState)

/-- The indirect finalization loop of `process_commit`: while a commit follows the earliest
and the earliest has been finalized directly, its pending transactions are finalized or
rejected indirectly and the finalized commits at the front are output. Each round that goes
on outputs a commit, so the number of buffered commits is enough fuel. -/
def indirectFinalizeCommits :
    Nat → CommitFinalizer → Except Panic (List CommittedSubDag × CommitFinalizer)
  | 0, s => .ok ([], s)
  | fuel + 1, s =>
    match s.pendingCommits with
    | first :: _ :: _ =>
      if !first.pendingBlocks.entries.isEmpty then .ok ([], s)
      else do
        let s ← tryIndirectFinalizeFirstCommit ctx certifier s
        let popped ← popFinalizedCommits ctx.overflowChecks s
        if popped.1.isEmpty then .ok ([], popped.2)
        else do
          let r ← indirectFinalizeCommits fuel popped.2
          pure (popped.1 ++ r.1, r.2)
    | _ => .ok ([], s)

/-- The assertion that commits arrive with consecutive indices. -/
def checkCommitIndex (lastProcessedCommit : Option Nat) (index : Nat) : Except Panic Unit :=
  match lastProcessedCommit with
  | none => .ok ⟨⟩
  | some last =>
    if last + 1 = index then .ok ⟨⟩ else .error (.commitIndexMismatch (last + 1) index)

/-- `CommitFinalizer::process_commit`: the commits finalized by this one, in order. -/
def processCommit (s : CommitFinalizer) (committedSubDag : CommittedSubDag) :
    Except Panic (List CommittedSubDag × CommitFinalizer) := do
  checkCommitIndex s.lastProcessedCommit committedSubDag.commitIndex
  let cs ← CommitState.new committedSubDag
  let s := { s with lastProcessedCommit := some committedSubDag.commitIndex,
                    pendingCommits := s.pendingCommits ++ [cs] }
  let s ← directFinalizeCommits ctx certifier s (List.range s.pendingCommits.length)
  let direct ← popFinalizedCommits ctx.overflowChecks s
  if direct.2.pendingCommits.isEmpty then pure direct
  else do
    let s ← linkBlocksInLastCommit direct.2
    let s ← appendOriginDescendantsFromLastCommit s
    let indirect ← indirectFinalizeCommits ctx certifier s.pendingCommits.length s
    pure (direct.1 ++ indirect.1, indirect.2)

end Process

/-- `CommitFinalizer::run` over the commits it receives, each processed against the
certifier state of its time. -/
def processCommits (ctx : Context) (s : CommitFinalizer) :
    List (TransactionCertifier.CertifierState × CommittedSubDag) →
      Except Panic (List CommittedSubDag × CommitFinalizer)
  | [] => .ok ([], s)
  | (certifier, committedSubDag) :: rest => do
    let r ← processCommit ctx certifier s committedSubDag
    let r' ← processCommits ctx r.2 rest
    pure (r.1 ++ r'.1, r'.2)

/-! ### The unchecked reject votes -/

section Overflow

variable (ctx : Context) (certifier : TransactionCertifier.CertifierState)

/-- The pending blocks of a new commit state, a block's reference mapped to its number of
transactions. -/
theorem commitState_new_eq (d : CommittedSubDag)
    (hne : (d.blocks.foldl (fun m b => m.insert b.reference b.numTransactions)
      OrderedMap.empty).entries ≠ []) :
    CommitState.new d = .ok ⟨d, d.blocks.foldl (fun m b => m.insert b.reference b.numTransactions)
      OrderedMap.empty, OrderedMap.empty, OrderedMap.empty⟩ := by
  simp [CommitState.new, List.isEmpty_iff, hne]

/-- Direct finalization stops at the first block whose reject votes name more transactions
than it has, once every block has vote info. -/
theorem directFinalizeBlocks_overflow (hchecks : ctx.overflowChecks = true)
    {l : List (BlockRef × Nat)} (cs : CommitState)
    (hinfo : ∀ p ∈ l, (certifier.getRejectVotes p.1).isSome)
    (hexcess : ∃ p ∈ l, ∃ votes, certifier.getRejectVotes p.1 = some votes ∧
      p.2 < votes.length) :
    directFinalizeBlocks ctx certifier l cs = .error .subtractionOverflow := by
  induction l generalizing cs with
  | nil =>
    obtain ⟨p, hp, -⟩ := hexcess
    exact absurd hp List.not_mem_nil
  | cons p rest ih =>
    obtain ⟨ref, n⟩ := p
    obtain ⟨votes, hvotes⟩ := Option.isSome_iff_exists.1 (hinfo _ List.mem_cons_self)
    simp only [directFinalizeBlocks, hvotes]
    by_cases hle : votes.length ≤ n
    · -- this block passes the check, so the excess is on a later one
      have hsub : subChecked ctx.overflowChecks 64 n votes.length = .ok (n - votes.length) := by
        simp [subChecked, hchecks, MachineWord.checkedSub, hle]
      rw [hsub, Except.ok_bind]
      refine ih _ (fun q hq => hinfo q (List.mem_cons_of_mem _ hq)) ?_
      obtain ⟨q, hq, votes', hvotes', hlt⟩ := hexcess
      rcases List.mem_cons.1 hq with rfl | hq
      · simp only [hvotes, Option.some.injEq] at hvotes'
        subst hvotes'
        omega
      · exact ⟨q, hq, votes', hvotes', hlt⟩
    · have hsub : subChecked ctx.overflowChecks 64 n votes.length =
          .error .subtractionOverflow := by
        simp [subChecked, hchecks, MachineWord.checkedSub, hle]
      rw [hsub, Except.error_bind]

/-- The direct finalization loop passes over commits finalized directly already. -/
theorem directFinalizeCommits_append_of_finalized (s : CommitFinalizer) {is : List Nat}
    (his : ∀ i ∈ is, ∃ cs, s.pendingCommits[i]? = some cs ∧ cs.pendingBlocks.entries = [])
    (rest : List Nat) :
    directFinalizeCommits ctx certifier s (is ++ rest) =
      directFinalizeCommits ctx certifier s rest := by
  induction is with
  | nil => rfl
  | cons i is ih =>
    obtain ⟨cs, hcs, hempty⟩ := his i List.mem_cons_self
    rw [List.cons_append]
    simp only [directFinalizeCommits, hcs, hempty, List.isEmpty_nil, if_true]
    exact ih fun j hj => his j (List.mem_cons_of_mem _ hj)

/-- A commit decided with local blocks is finalized directly, and so overflows where one of
its blocks carries more reject votes than transactions. -/
theorem directFinalizeCommits_overflow (hchecks : ctx.overflowChecks = true) (s : CommitFinalizer)
    {i : Nat} {cs : CommitState}
    (hcs : s.pendingCommits[i]? = some cs) (hne : cs.pendingBlocks.entries ≠ [])
    (hlocal : cs.commit.decidedWithLocalBlocks = true)
    (hinfo : ∀ p ∈ cs.pendingBlocks.entries, (certifier.getRejectVotes p.1).isSome)
    (hexcess : ∃ p ∈ cs.pendingBlocks.entries, ∃ votes,
      certifier.getRejectVotes p.1 = some votes ∧ p.2 < votes.length) (rest : List Nat) :
    directFinalizeCommits ctx certifier s (i :: rest) = .error .subtractionOverflow := by
  have hblocks : directFinalizeBlocks ctx certifier cs.pendingBlocks.entries
      { cs with pendingBlocks := OrderedMap.empty } = .error .subtractionOverflow :=
    directFinalizeBlocks_overflow ctx certifier hchecks _ hinfo hexcess
  have htry : tryDirectFinalizeCommit ctx certifier s i = .error .subtractionOverflow := by
    simp [tryDirectFinalizeCommit, hcs, List.isEmpty_iff, hne, hblocks]
  simp [directFinalizeCommits, hcs, List.isEmpty_iff, hne, hlocal, htry]

theorem checkCommitIndex_eq_ok {last : Option Nat} {index : Nat} :
    checkCommitIndex last index = .ok ⟨⟩ ↔ ∀ l, last = some l → l + 1 = index := by
  cases last with
  | none => simp [checkCommitIndex]
  | some l => by_cases h : l + 1 = index <;> simp [checkCommitIndex, h]

/-- Processing a commit decided with local blocks, every commit before it being finalized
directly, panics where one of its blocks carries reject votes on more transactions than it
has, as nothing checks the indices the votes name. -/
theorem processCommit_overflow (hchecks : ctx.overflowChecks = true) (s : CommitFinalizer)
    (d : CommittedSubDag)
    (hindex : ∀ last, s.lastProcessedCommit = some last → last + 1 = d.commitIndex)
    (hdirect : ∀ cs ∈ s.pendingCommits, cs.pendingBlocks.entries = [])
    (hlocal : d.decidedWithLocalBlocks = true)
    (hnodup : (d.blocks.map (·.reference)).Nodup)
    (hinfo : ∀ b ∈ d.blocks, (certifier.getRejectVotes b.reference).isSome)
    (hexcess : ∃ b ∈ d.blocks, ∃ votes, certifier.getRejectVotes b.reference = some votes ∧
      b.numTransactions < votes.length) :
    processCommit ctx certifier s d = .error .subtractionOverflow := by
  obtain ⟨b, hb, votes, hvotes, hlt⟩ := hexcess
  set pendingBlocks := d.blocks.foldl (fun m b => m.insert b.reference b.numTransactions)
    OrderedMap.empty with hpending
  -- the block's entry among the pending blocks
  have hentry : (b.reference, b.numTransactions) ∈ pendingBlocks.entries :=
    OrderedMap.get?_eq_some_iff.1 (OrderedMap.get?_foldl_insert_of_mem _ _ hnodup _ hb)
  have hne : pendingBlocks.entries ≠ [] := List.ne_nil_of_mem hentry
  have hcheck : checkCommitIndex s.lastProcessedCommit d.commitIndex = .ok ⟨⟩ :=
    checkCommitIndex_eq_ok.2 hindex
  let cs : CommitState := ⟨d, pendingBlocks, OrderedMap.empty, OrderedMap.empty⟩
  let s' : CommitFinalizer :=
    { s with lastProcessedCommit := some d.commitIndex, pendingCommits := s.pendingCommits ++ [cs] }
  -- the loop passes over the commits before and overflows at the new one
  have hloop : directFinalizeCommits ctx certifier s' (List.range s'.pendingCommits.length) =
      .error .subtractionOverflow := by
    have hlen : s'.pendingCommits.length = s.pendingCommits.length + 1 := by simp [s']
    rw [hlen, List.range_succ, directFinalizeCommits_append_of_finalized]
    · refine @directFinalizeCommits_overflow ctx certifier hchecks s' s.pendingCommits.length cs ?_ hne
        hlocal ?_ ⟨(b.reference, b.numTransactions), hentry, votes, hvotes, hlt⟩ []
      · simp [s']
      · intro p hp
        rcases OrderedMap.mem_foldl_insert _ _ _ hp with hp | ⟨x, hx, rfl⟩
        · exact absurd hp List.not_mem_nil
        · exact hinfo x hx
    · intro i hi
      have hi' : i < s.pendingCommits.length := List.mem_range.1 hi
      refine ⟨s.pendingCommits[i], ?_, hdirect _ (List.getElem_mem hi')⟩
      simp [s', List.getElem?_append_left hi']
  simp only [processCommit, hcheck, commitState_new_eq d hne, Except.ok_bind]
  rw [hloop]
  rfl

end Overflow

/-! Reject votes naming transactions that their block does not have. -/
namespace ByzantineRejectVotes

open TransactionCertifier

def committee : Committee := ⟨0, 4, 3, 2, [⟨1⟩, ⟨1⟩, ⟨1⟩, ⟨1⟩]⟩

/-- A build with overflow checks, as the dev, test and simulator profiles are. -/
def ctx : Context := ⟨committee, 0, false, true⟩

/-- A round-1 block of authority 0 with `n` transactions. -/
def target (n : Nat) : VerifiedBlock :=
  { epoch := 0, round := 1, author := 0, digest := 0, timestampMs := 0, ancestors := [],
    numTransactions := n, transactionVotes := [] }

/-- The round-2 block of `author` above it, voting to reject its transaction `index`. -/
def voter (n author index : Nat) : VerifiedBlock :=
  { epoch := 0, round := 2, author, digest := 0, timestampMs := 0,
    ancestors := [(target n).reference], numTransactions := 0,
    transactionVotes := [⟨(target n).reference, [index]⟩] }

/-- The certifier state once it has received the target and the voters of `authors`. -/
def certifier (n index : Nat) (authors : List Nat) : CertifierState :=
  (addVotedBlocks committee CertifierState.new
    ((target n, []) :: authors.map fun a => (voter n a index, []))).2

/-- The commit of the target and its voters, decided with local blocks. -/
def commit (n index : Nat) (authors : List Nat) : CommittedSubDag :=
  ⟨(voter n 1 index).reference, target n :: authors.map (voter n · index), 1, true,
    OrderedMap.empty⟩

/-- One vote on transaction 0 of a block without transactions makes the first commit panic;
the votes of a quorum on transaction 5 of a block with two make the commit output with
transaction 5 rejected. -/
theorem processCommit_unchecked_reject_votes :
    processCommit ctx (certifier 0 0 [1]) new (commit 0 0 [1]) = .error .subtractionOverflow ∧
      ((processCommit ctx (certifier 2 5 [1, 2, 3]) new (commit 2 5 [1, 2, 3])).toOption.map
        fun r => r.1.map fun d => d.rejectedTransactionsByBlock.get? (target 2).reference) =
        some [some [5]] :=
  ⟨processCommit_overflow ctx _ rfl new _ (fun _ h => nomatch h) (fun _ h => nomatch h) rfl
    (by decide) (by decide) ⟨target 0, by decide, [(0, 1)], by decide, by decide⟩, by decide⟩

end ByzantineRejectVotes

/-! ### What a commit processed without a panic went through -/

section Inversion

/-- A new commit state holds the commit, with no pending transactions and nothing
rejected. -/
theorem commitState_new_eq_ok {d : CommittedSubDag} {cs : CommitState}
    (h : CommitState.new d = .ok cs) :
    ∃ pendingBlocks, cs = ⟨d, pendingBlocks, OrderedMap.empty, OrderedMap.empty⟩ := by
  unfold CommitState.new at h
  dsimp only at h
  split at h
  · cases h
  · cases h
    exact ⟨_, rfl⟩

/-- Linking the last commit's blocks changes the block graph only. -/
theorem linkBlocksInLastCommit_eq {s s' : CommitFinalizer}
    (h : linkBlocksInLastCommit s = .ok s') : ∃ blocks, s' = { s with blocks } := by
  unfold linkBlocksInLastCommit at h
  split at h
  · cases h
  · cases h
    exact ⟨_, rfl⟩

/-- Recording origin descendants changes the block graph only. -/
theorem appendOriginDescendantsFromLastCommit_eq {s s' : CommitFinalizer}
    (h : appendOriginDescendantsFromLastCommit s = .ok s') : ∃ blocks, s' = { s with blocks } := by
  unfold appendOriginDescendantsFromLastCommit at h
  split at h
  · cases h
  · obtain ⟨blocks, -, rfl⟩ := Except.bind_pure_eq_ok.1 h
    exact ⟨blocks, rfl⟩

variable (ctx : Context) (certifier : TransactionCertifier.CertifierState)

/-- One index of the direct finalization loop: it passes over the commit, stops, or finalizes
it and goes on. -/
theorem directFinalizeCommits_cons_eq_ok {s s' : CommitFinalizer} {i : Nat} {rest : List Nat}
    (h : directFinalizeCommits ctx certifier s (i :: rest) = .ok s') :
    directFinalizeCommits ctx certifier s rest = .ok s' ∨ s' = s ∨
      ∃ s₁, tryDirectFinalizeCommit ctx certifier s i = .ok s₁ ∧
        directFinalizeCommits ctx certifier s₁ rest = .ok s' := by
  simp only [directFinalizeCommits] at h
  split at h
  · cases h
  · split at h
    · exact .inl h
    · split at h
      · -- a commit decided from remote blocks waits for a wave above it
        split at h
        · cases h
        · split at h
          · cases h
            exact .inr (.inl rfl)
          · exact .inr (.inr (Except.bind_eq_ok.1 h))
      · exact .inr (.inr (Except.bind_eq_ok.1 h))

/-- The three steps of `try_indirect_finalize_first_commit`. -/
theorem tryIndirectFinalizeFirstCommit_eq_ok {s s' : CommitFinalizer}
    (h : tryIndirectFinalizeFirstCommit ctx certifier s = .ok s') :
    ∃ s₁ s₂, checkPendingTransactionsInFirstCommit ctx certifier s = .ok s₁ ∧
      tryIndirectFinalizePendingTransactionsInFirstCommit ctx s₁ = .ok s₂ ∧
      tryIndirectRejectPendingTransactionsInFirstCommit s₂ = .ok s' := by
  unfold tryIndirectFinalizeFirstCommit at h
  split at h
  · cases h
  · split_ifs at h
    obtain ⟨s₁, h₁, h⟩ := Except.bind_eq_ok.1 h
    obtain ⟨s₂, h₂, h₃⟩ := Except.bind_eq_ok.1 h
    exact ⟨s₁, s₂, h₁, h₂, h₃⟩

/-- One round of the indirect finalization loop: it stops, or finalizes the earliest commit
indirectly and pops, and goes on where something was output. -/
theorem indirectFinalizeCommits_succ_eq_ok {fuel : Nat} {s : CommitFinalizer}
    {r : List CommittedSubDag × CommitFinalizer}
    (h : indirectFinalizeCommits ctx certifier (fuel + 1) s = .ok r) :
    r = ([], s) ∨ ∃ s₁ popped, tryIndirectFinalizeFirstCommit ctx certifier s = .ok s₁ ∧
      popFinalizedCommits ctx.overflowChecks s₁ = .ok popped ∧
      ((popped.1 = [] ∧ r = ([], popped.2)) ∨
        ∃ r', indirectFinalizeCommits ctx certifier fuel popped.2 = .ok r' ∧
          r = (popped.1 ++ r'.1, r'.2)) := by
  unfold indirectFinalizeCommits at h
  split at h
  · split_ifs at h
    · exact .inl (Except.ok.inj h).symm
    · obtain ⟨s₁, h₁, h⟩ := Except.bind_eq_ok.1 h
      obtain ⟨popped, h₂, h⟩ := Except.bind_eq_ok.1 h
      refine .inr ⟨s₁, popped, h₁, h₂, ?_⟩
      split_ifs at h with hempty
      · exact .inl ⟨List.isEmpty_iff.1 hempty, (Except.ok.inj h).symm⟩
      · obtain ⟨r', hr', rfl⟩ := Except.bind_pure_eq_ok.1 h
        exact .inr ⟨r', hr', rfl⟩
  · exact .inl (Except.ok.inj h).symm

/-- The steps of `process_commit` when it does not panic: the index check, the new commit
state at the end of the buffer, direct finalization and a pop; and where commits remain
buffered, links that change the block graph only, then the indirect loop. -/
theorem processCommit_eq_ok {s : CommitFinalizer} {d : CommittedSubDag}
    {r : List CommittedSubDag × CommitFinalizer} (h : processCommit ctx certifier s d = .ok r) :
    ∃ cs s₁ direct, checkCommitIndex s.lastProcessedCommit d.commitIndex = .ok ⟨⟩ ∧
      CommitState.new d = .ok cs ∧
      directFinalizeCommits ctx certifier
        { s with
          lastProcessedCommit := some d.commitIndex
          pendingCommits := s.pendingCommits ++ [cs] }
        (List.range (s.pendingCommits ++ [cs]).length) = .ok s₁ ∧
      popFinalizedCommits ctx.overflowChecks s₁ = .ok direct ∧
      ((direct.2.pendingCommits = [] ∧ r = direct) ∨
        ∃ s₂ blocks indirect, direct.2.pendingCommits ≠ [] ∧
          linkBlocksInLastCommit direct.2 = .ok s₂ ∧
          appendOriginDescendantsFromLastCommit s₂ = .ok { direct.2 with blocks } ∧
          indirectFinalizeCommits ctx certifier direct.2.pendingCommits.length
            { direct.2 with blocks } = .ok indirect ∧
          r = (direct.1 ++ indirect.1, indirect.2)) := by
  unfold processCommit at h
  obtain ⟨⟨⟩, hcheck, h⟩ := Except.bind_eq_ok.1 h
  obtain ⟨cs, hcs, h⟩ := Except.bind_eq_ok.1 h
  obtain ⟨s₁, h₁, h⟩ := Except.bind_eq_ok.1 h
  obtain ⟨direct, h₂, h⟩ := Except.bind_eq_ok.1 h
  refine ⟨cs, s₁, direct, hcheck, hcs, h₁, h₂, ?_⟩
  split_ifs at h with hempty
  · rw [Except.pure_eq_ok] at h
    exact .inl ⟨List.isEmpty_iff.1 hempty, h.symm⟩
  · obtain ⟨s₂, h₃, h⟩ := Except.bind_eq_ok.1 h
    obtain ⟨s₃, h₄, h⟩ := Except.bind_eq_ok.1 h
    obtain ⟨indirect, h₅, rfl⟩ := Except.bind_pure_eq_ok.1 h
    obtain ⟨_, rfl⟩ := linkBlocksInLastCommit_eq h₃
    obtain ⟨blocks, rfl⟩ := appendOriginDescendantsFromLastCommit_eq h₄
    exact .inr ⟨_, blocks, indirect, fun h => hempty (List.isEmpty_iff.2 h), h₃, h₄, h₅, rfl⟩

end Inversion

/-! ### Commits are output in the order they arrive -/

section Order

/-- The buffered commits, earliest first, as they arrived. -/
def buffered (s : CommitFinalizer) : List CommittedSubDag :=
  s.pendingCommits.map fun cs => cs.commit.base

/-- What a step that updates only the transactions of buffered commits and the block graph
keeps: the last commit index and the buffered commits. -/
def KeepsCommits (s s' : CommitFinalizer) : Prop :=
  s'.lastProcessedCommit = s.lastProcessedCommit ∧ buffered s' = buffered s

theorem KeepsCommits.rfl {s : CommitFinalizer} : KeepsCommits s s := ⟨Eq.refl _, Eq.refl _⟩

theorem KeepsCommits.trans {s s' s'' : CommitFinalizer} (h : KeepsCommits s s')
    (h' : KeepsCommits s' s'') : KeepsCommits s s'' :=
  ⟨h'.1.trans h.1, h'.2.trans h.2⟩

@[simp] theorem insertPending_commit (cs : CommitState) (blockRef : BlockRef) (index : Nat) :
    (cs.insertPending blockRef index).commit = cs.commit := rfl

@[simp] theorem extendRejected_commit (cs : CommitState) (blockRef : BlockRef)
    (indices : List Nat) : (cs.extendRejected blockRef indices).commit = cs.commit := rfl

@[simp] theorem removePendingTransactions_commit (cs : CommitState) (blockRef : BlockRef)
    (transactions : List Nat) :
    (cs.removePendingTransactions blockRef transactions).commit = cs.commit := by
  unfold CommitState.removePendingTransactions
  split
  · rfl
  · dsimp only
    split <;> rfl

@[simp] theorem finalizedCommit_base (cs : CommitState) :
    cs.finalizedCommit.base = cs.commit.base := rfl

theorem foldl_commit {α : Type} {f : CommitState → α → CommitState}
    (hf : ∀ cs x, (f cs x).commit = cs.commit) (l : List α) (cs : CommitState) :
    (l.foldl f cs).commit = cs.commit := by
  induction l generalizing cs with
  | nil => rfl
  | cons x xs ih => rw [List.foldl_cons, ih, hf]

theorem commitState_new_commit {d : CommittedSubDag} {cs : CommitState}
    (h : CommitState.new d = .ok cs) : cs.commit = d := by
  obtain ⟨_, rfl⟩ := commitState_new_eq_ok h
  rfl

/-- Replacing the buffered commit state at `i` by one of the same commit. -/
theorem keepsCommits_set {s : CommitFinalizer} {i : Nat} {cs cs' : CommitState}
    (hi : s.pendingCommits[i]? = some cs) (h : cs'.commit = cs.commit) :
    KeepsCommits s { s with pendingCommits := s.pendingCommits.set i cs' } := by
  obtain ⟨hlt, rfl⟩ := List.getElem?_eq_some_iff.1 hi
  refine ⟨Eq.refl _, ?_⟩
  simp only [buffered, List.map_set, h]
  have hlt' : i < (s.pendingCommits.map fun cs => cs.commit.base).length := by simpa using hlt
  calc (s.pendingCommits.map fun cs => cs.commit.base).set i s.pendingCommits[i].commit.base
      = (s.pendingCommits.map fun cs => cs.commit.base).set i
          (s.pendingCommits.map fun cs => cs.commit.base)[i] := by rw [List.getElem_map]
    _ = _ := List.set_getElem_self hlt'

/-- Replacing the earliest buffered commit state by one of the same commit. -/
theorem keepsCommits_cons {s : CommitFinalizer} {first first' : CommitState}
    {rest : List CommitState} (hs : s.pendingCommits = first :: rest)
    (h : first'.commit = first.commit) :
    KeepsCommits s { s with pendingCommits := first' :: rest } :=
  ⟨Eq.refl _, by simp [buffered, hs, h]⟩

section Steps

variable (ctx : Context) (certifier : TransactionCertifier.CertifierState)

theorem finalizeBlockVotes_commit (blockRef : BlockRef) (rejectVotes : List (Nat × Nat))
    (cs : CommitState) : (finalizeBlockVotes ctx blockRef rejectVotes cs).commit = cs.commit :=
  foldl_commit (fun cs vote => by split <;> rfl) _ _

theorem directFinalizeBlocks_commit {l : List (BlockRef × Nat)} {cs cs' : CommitState}
    (h : directFinalizeBlocks ctx certifier l cs = .ok cs') : cs'.commit = cs.commit := by
  induction l generalizing cs with
  | nil => cases h; rfl
  | cons p rest ih =>
    obtain ⟨blockRef, numTransactions⟩ := p
    simp only [directFinalizeBlocks] at h
    split at h
    · cases h
    · obtain ⟨_, -, h⟩ := Except.bind_eq_ok.1 h
      rw [ih h, finalizeBlockVotes_commit]

theorem tryDirectFinalizeCommit_keeps {s s' : CommitFinalizer} {i : Nat}
    (h : tryDirectFinalizeCommit ctx certifier s i = .ok s') : KeepsCommits s s' := by
  unfold tryDirectFinalizeCommit at h
  split at h
  · cases h
  · rename_i cs hcs
    split at h
    · cases h
    · obtain ⟨cs', hcs', rfl⟩ := Except.bind_pure_eq_ok.1 h
      have hcommit := directFinalizeBlocks_commit ctx certifier hcs'
      exact keepsCommits_set hcs hcommit

theorem directFinalizeCommits_keeps {s s' : CommitFinalizer} {is : List Nat}
    (h : directFinalizeCommits ctx certifier s is = .ok s') : KeepsCommits s s' := by
  induction is generalizing s with
  | nil => cases h; exact KeepsCommits.rfl
  | cons i rest ih =>
    rcases directFinalizeCommits_cons_eq_ok ctx certifier h with h | rfl | ⟨s₁, h₁, h⟩
    · exact ih h
    · exact KeepsCommits.rfl
    · exact (tryDirectFinalizeCommit_keeps ctx certifier h₁).trans (ih h)

end Steps

section FirstCommit

variable (ctx : Context) (certifier : TransactionCertifier.CertifierState)

theorem checkPendingTransactionsInFirstCommit_keeps {s s' : CommitFinalizer}
    (h : checkPendingTransactionsInFirstCommit ctx certifier s = .ok s') : KeepsCommits s s' := by
  unfold checkPendingTransactionsInFirstCommit at h
  split at h
  · cases h
  · rename_i first rest hs
    obtain ⟨all, -, rfl⟩ := Except.bind_pure_eq_ok.1 h
    exact keepsCommits_cons hs (foldl_commit (fun cs r => by simp) _ _)

theorem tryIndirectFinalizePendingTransactionsInFirstCommit_keeps {s s' : CommitFinalizer}
    (h : tryIndirectFinalizePendingTransactionsInFirstCommit ctx s = .ok s') :
    KeepsCommits s s' := by
  unfold tryIndirectFinalizePendingTransactionsInFirstCommit at h
  split at h
  · cases h
  · rename_i first rest hs
    obtain ⟨results, -, rfl⟩ := Except.bind_pure_eq_ok.1 h
    exact keepsCommits_cons hs (foldl_commit (fun cs r => by simp) _ _)

theorem tryIndirectRejectPendingTransactionsInFirstCommit_keeps {s s' : CommitFinalizer}
    (h : tryIndirectRejectPendingTransactionsInFirstCommit s = .ok s') : KeepsCommits s s' := by
  unfold tryIndirectRejectPendingTransactionsInFirstCommit at h
  split at h
  · rename_i first rest last hs hlast
    -- the assertion's branch fails, so what succeeds rejects the pending or does nothing
    split_ifs at h
    · cases h
      exact keepsCommits_cons hs (foldl_commit (fun cs e => by simp) _ _)
    · cases h
      exact KeepsCommits.rfl
  · cases h

theorem tryIndirectFinalizeFirstCommit_keeps {s s' : CommitFinalizer}
    (h : tryIndirectFinalizeFirstCommit ctx certifier s = .ok s') : KeepsCommits s s' := by
  obtain ⟨s₁, s₂, h₁, h₂, h₃⟩ := tryIndirectFinalizeFirstCommit_eq_ok ctx certifier h
  exact (checkPendingTransactionsInFirstCommit_keeps ctx certifier h₁).trans
      ((tryIndirectFinalizePendingTransactionsInFirstCommit_keeps ctx h₂).trans
        (tryIndirectRejectPendingTransactionsInFirstCommit_keeps h₃))

end FirstCommit

/-- The commits popped are the buffered ones from the earliest, with their rejections. -/
theorem popFinalized_order {overflowChecks : Bool} {l : List CommitState}
    {blocks : OrderedMap BlockRef BlockState}
    {r : List CommittedSubDag × List CommitState × OrderedMap BlockRef BlockState}
    (h : popFinalized overflowChecks l blocks = .ok r) :
    r.1.map CommittedSubDag.base ++ r.2.1.map (fun cs => cs.commit.base) =
      l.map fun cs => cs.commit.base := by
  induction l generalizing blocks r with
  | nil => cases h; rfl
  | cons cs rest ih =>
    unfold popFinalized at h
    split_ifs at h
    · cases h
      rfl
    · obtain ⟨_, -, h⟩ := Except.bind_eq_ok.1 h
      obtain ⟨r', hr', rfl⟩ := Except.bind_pure_eq_ok.1 h
      simp [← ih hr']

theorem popFinalizedCommits_order {overflowChecks : Bool} {s : CommitFinalizer}
    {r : List CommittedSubDag × CommitFinalizer} (h : popFinalizedCommits overflowChecks s = .ok r) :
    r.2.lastProcessedCommit = s.lastProcessedCommit ∧
      r.1.map CommittedSubDag.base ++ buffered r.2 = buffered s := by
  unfold popFinalizedCommits at h
  obtain ⟨r', hr', rfl⟩ := Except.bind_pure_eq_ok.1 h
  exact ⟨Eq.refl _, popFinalized_order hr'⟩

section Process

variable (ctx : Context) (certifier : TransactionCertifier.CertifierState)

theorem indirectFinalizeCommits_order {fuel : Nat} {s : CommitFinalizer}
    {r : List CommittedSubDag × CommitFinalizer}
    (h : indirectFinalizeCommits ctx certifier fuel s = .ok r) :
    r.2.lastProcessedCommit = s.lastProcessedCommit ∧
      r.1.map CommittedSubDag.base ++ buffered r.2 = buffered s := by
  induction fuel generalizing s r with
  | zero =>
    cases h
    exact ⟨Eq.refl _, Eq.refl _⟩
  | succ fuel ih =>
    rcases indirectFinalizeCommits_succ_eq_ok ctx certifier h with rfl | ⟨s₁, popped, h₁, h₂, hr⟩
    · exact ⟨Eq.refl _, Eq.refl _⟩
    · have hkeep := tryIndirectFinalizeFirstCommit_keeps ctx certifier h₁
      obtain ⟨hlast, hpop⟩ := popFinalizedCommits_order h₂
      rcases hr with ⟨hempty, rfl⟩ | ⟨r', hr', rfl⟩
      · -- nothing more was output: the buffer is as it was
        rw [hempty, List.map_nil, List.nil_append] at hpop
        exact ⟨hlast.trans hkeep.1, hpop.trans hkeep.2⟩
      · obtain ⟨hlast', hrest⟩ := ih hr'
        refine ⟨hlast'.trans (hlast.trans hkeep.1), ?_⟩
        rw [List.map_append, List.append_assoc, hrest, hpop, hkeep.2]

/-- One commit processed: the index check passed, and the commits output and those still
buffered are, in order, those buffered before and the new one. -/
theorem processCommit_order {s : CommitFinalizer} {d : CommittedSubDag}
    {r : List CommittedSubDag × CommitFinalizer}
    (h : processCommit ctx certifier s d = .ok r) :
    checkCommitIndex s.lastProcessedCommit d.commitIndex = .ok ⟨⟩ ∧
      r.2.lastProcessedCommit = some d.commitIndex ∧
      r.1.map CommittedSubDag.base ++ buffered r.2 = buffered s ++ [d.base] := by
  obtain ⟨cs, s₁, direct, hcheck, hcs, h₁, h₂, hr⟩ := processCommit_eq_ok ctx certifier h
  have hkeep := directFinalizeCommits_keeps ctx certifier h₁
  obtain ⟨hlast, hpop⟩ := popFinalizedCommits_order h₂
  -- the new commit joins the buffer at its end
  have hpush : buffered
      { s with
        lastProcessedCommit := some d.commitIndex
        pendingCommits := s.pendingCommits ++ [cs] } = buffered s ++ [d.base] := by
    simp [buffered, commitState_new_commit hcs]
  refine ⟨hcheck, ?_⟩
  rcases hr with ⟨-, rfl⟩ | ⟨-, blocks, indirect, -, -, -, h₃, rfl⟩
  · exact ⟨hlast.trans hkeep.1, hpop.trans (hkeep.2.trans hpush)⟩
  · obtain ⟨hlast', hindirect⟩ := indirectFinalizeCommits_order ctx certifier h₃
    refine ⟨hlast'.trans (hlast.trans hkeep.1), ?_⟩
    rw [List.map_append, List.append_assoc, hindirect]
    exact hpop.trans (hkeep.2.trans hpush)

end Process

/-- A run: the commits output and those still buffered are, in order, those buffered at the
start and those received; and the indices received follow each other from the last one
processed. -/
theorem processCommits_order (ctx : Context) {s : CommitFinalizer}
    {inputs : List (TransactionCertifier.CertifierState × CommittedSubDag)}
    {r : List CommittedSubDag × CommitFinalizer} (h : processCommits ctx s inputs = .ok r) :
    r.1.map CommittedSubDag.base ++ buffered r.2 = buffered s ++ inputs.map (·.2.base) ∧
      (s.lastProcessedCommit.toList ++ inputs.map (·.2.commitIndex)).IsChain
        fun a b => a + 1 = b := by
  induction inputs generalizing s r with
  | nil =>
    cases h
    refine ⟨by simp, ?_⟩
    cases s.lastProcessedCommit <;> simp
  | cons input rest ih =>
    obtain ⟨certifier, d⟩ := input
    obtain ⟨r₁, h₁, h⟩ := Except.bind_eq_ok.1 h
    obtain ⟨r₂, h₂, rfl⟩ := Except.bind_pure_eq_ok.1 h
    obtain ⟨hcheck, hlast, hstep⟩ := processCommit_order ctx certifier h₁
    obtain ⟨hrest, hchain⟩ := ih h₂
    rw [hlast, Option.toList_some, List.singleton_append] at hchain
    refine ⟨?_, ?_⟩
    · rw [List.map_append, List.append_assoc, hrest, ← List.append_assoc, hstep]
      simp
    · cases hs : s.lastProcessedCommit with
      | none => simpa using hchain
      | some last =>
        rw [hs, checkCommitIndex_eq_ok] at hcheck
        simpa [List.isChain_cons_cons, hcheck last rfl] using hchain

/-- From a new finalizer, the commits output and those still buffered are the commits
received, in order, and no commit is output twice. -/
theorem processCommits_outputs_in_order (ctx : Context)
    (inputs : List (TransactionCertifier.CertifierState × CommittedSubDag))
    {r : List CommittedSubDag × CommitFinalizer} (h : processCommits ctx new inputs = .ok r) :
    r.1.map CommittedSubDag.base ++ buffered r.2 = inputs.map (·.2.base) ∧
      (r.1.map (·.commitIndex)).Nodup := by
  obtain ⟨horder, hchain⟩ := processCommits_order ctx h
  rw [show buffered new = [] from rfl, List.nil_append] at horder
  refine ⟨horder, ?_⟩
  -- the indices received increase, and those output are the first of them
  have hinc : (inputs.map (·.2.commitIndex)).Pairwise (· < ·) :=
    List.isChain_iff_pairwise.1 (hchain.imp fun _ _ hab => by omega)
  have hprefix : r.1.map (·.commitIndex) <+: inputs.map (·.2.commitIndex) := by
    have hp := (List.prefix_append (r.1.map CommittedSubDag.base) (buffered r.2)).map
      CommittedSubDag.commitIndex
    rw [horder] at hp
    simpa [Function.comp_def, CommittedSubDag.base] using hp
  exact (hinc.imp ne_of_lt).sublist hprefix.sublist

namespace TwoCommits

open ByzantineRejectVotes

/-- The second commit: the block of authority 0, which votes as the others do. -/
def second : CommittedSubDag :=
  ⟨(voter 2 0 5).reference, [voter 2 0 5], 2, true, OrderedMap.empty⟩

def inputs : List (TransactionCertifier.CertifierState × CommittedSubDag) :=
  [(certifier 2 5 [1, 2, 3], commit 2 5 [1, 2, 3]), (certifier 2 5 [1, 2, 3, 0], second)]

def outputs : List CommittedSubDag :=
  [{ commit 2 5 [1, 2, 3] with
      rejectedTransactionsByBlock := OrderedMap.empty.insert (target 2).reference [5] },
    second]

/-- Both commits are output, and nothing is left buffered. -/
def final : CommitFinalizer := ⟨some 2, [], OrderedMap.empty⟩

theorem processCommits_twoCommits : processCommits ctx new inputs = .ok (outputs, final) := by
  decide

theorem processCommits_outputs_in_order_twoCommits :
    processCommits ctx new inputs = .ok (outputs, final) ∧
      outputs.map CommittedSubDag.base ++ buffered final = inputs.map (·.2.base) ∧
        (outputs.map (·.commitIndex)).Nodup :=
  ⟨processCommits_twoCommits,
    @processCommits_outputs_in_order ctx inputs (outputs, final) processCommits_twoCommits⟩

end TwoCommits

end Order

/-! ### Every rejection has a reason -/

section Rejections

variable (ctx : Context) (certs : List TransactionCertifier.CertifierState) (rounds : List Nat)

/-- Why transaction `i` of block `b`, in a commit led at round `leaderRound`, may be
rejected: a quorum rejects it in one of the certifier states `certs`, or one of the commits
led at `rounds` is `INDIRECT_REJECT_DEPTH` leader rounds above it. -/
def RejectionJustified (leaderRound : Nat) (b : BlockRef) (i : Nat) : Prop :=
  (∃ cert ∈ certs, ∃ votes, cert.getRejectVotes b = some votes ∧
    ∃ stake, (i, stake) ∈ votes ∧ ctx.committee.quorumThreshold.toNat ≤ stake) ∨
  ∃ r ∈ rounds, leaderRound + indirectRejectDepth ≤ r

/-- A buffered commit as it arrived, led at one of `rounds`, whose every rejected
transaction is justified. -/
structure CommitState.Justified (cs : CommitState) : Prop where
  fresh : cs.commit.rejectedTransactionsByBlock = OrderedMap.empty
  round_mem : cs.commit.leader.round ∈ rounds
  rejected : ∀ b rejected, cs.rejectedTransactions.get? b = some rejected →
    ∀ i ∈ rejected.keys, RejectionJustified ctx certs rounds cs.commit.leader.round b i

/-- Every buffered commit is justified. -/
def Justified (s : CommitFinalizer) : Prop :=
  ∀ cs ∈ s.pendingCommits, cs.Justified ctx certs rounds

/-- A commit output whose every rejected transaction is justified. -/
def OutputJustified (o : CommittedSubDag) : Prop :=
  ∀ b rejected, o.rejectedTransactionsByBlock.get? b = some rejected →
    ∀ i ∈ rejected, RejectionJustified ctx certs rounds o.leader.round b i

variable {ctx certs rounds}

theorem CommitState.Justified.of_eq {cs cs' : CommitState} (h : cs.Justified ctx certs rounds)
    (hc : cs'.commit = cs.commit) (hr : cs'.rejectedTransactions = cs.rejectedTransactions) :
    cs'.Justified ctx certs rounds where
  fresh := by rw [hc]; exact h.fresh
  round_mem := by rw [hc]; exact h.round_mem
  rejected := by
    intro b rejected hget i hi
    rw [hr] at hget
    rw [hc]
    exact h.rejected b rejected hget i hi

theorem removePendingTransactions_rejected (cs : CommitState) (blockRef : BlockRef)
    (transactions : List Nat) :
    (cs.removePendingTransactions blockRef transactions).rejectedTransactions =
      cs.rejectedTransactions := by
  unfold CommitState.removePendingTransactions
  split
  · rfl
  · dsimp only
    split <;> rfl

/-- Extending a block's rejected transactions by justified ones. -/
theorem CommitState.Justified.extendRejected {cs : CommitState}
    (h : cs.Justified ctx certs rounds) {b : BlockRef} {indices : List Nat}
    (hi : ∀ i ∈ indices, RejectionJustified ctx certs rounds cs.commit.leader.round b i) :
    (cs.extendRejected b indices).Justified ctx certs rounds where
  fresh := h.fresh
  round_mem := h.round_mem
  rejected := by
    intro b' rejected hget i hi'
    simp only [CommitState.extendRejected, OrderedMap.get?_insert] at hget
    split_ifs at hget with hb
    · subst hb
      cases hget
      rcases OrderedMap.mem_keys_foldl_insert (fun i => i) (fun _ => ()) _ hi' with
        hold | ⟨x, hx, rfl⟩
      · -- rejected before
        cases hg : cs.rejectedTransactions.get? b' with
        | none =>
          rw [OrderedMap.entry_of_get?_eq_none hg] at hold
          exact absurd hold List.not_mem_nil
        | some old =>
          rw [OrderedMap.entry_of_get? hg] at hold
          exact h.rejected b' old hg i hold
      · exact hi x hx
    · exact h.rejected b' rejected hget i hi'

/-- A fold of steps that keep a commit and its justification. -/
theorem foldl_justified {α : Type} {f : CommitState → α → CommitState} {l : List α}
    {cs : CommitState} (hcommit : ∀ cs x, (f cs x).commit = cs.commit)
    (hf : ∀ cs' x, x ∈ l → cs'.commit = cs.commit → cs'.Justified ctx certs rounds →
      (f cs' x).Justified ctx certs rounds)
    (h : cs.Justified ctx certs rounds) : (l.foldl f cs).Justified ctx certs rounds := by
  -- the fold goes on from any state of the same commit
  suffices ∀ (l' : List α), (∀ x ∈ l', x ∈ l) → ∀ cs', cs'.commit = cs.commit →
      cs'.Justified ctx certs rounds → (l'.foldl f cs').Justified ctx certs rounds from
    this l (fun _ hx => hx) cs rfl h
  intro l' hl'
  induction l' with
  | nil => exact fun cs' _ h' => h'
  | cons x xs ih =>
    intro cs' hc h'
    rw [List.foldl_cons]
    exact ih (fun y hy => hl' y (List.mem_cons_of_mem _ hy)) _ ((hcommit cs' x).trans hc)
      (hf cs' x (hl' x List.mem_cons_self) hc h')

theorem Justified.set {s : CommitFinalizer} (h : Justified ctx certs rounds s) {i : Nat}
    {cs : CommitState} (hcs : cs.Justified ctx certs rounds) :
    Justified ctx certs rounds { s with pendingCommits := s.pendingCommits.set i cs } := by
  intro cs' hmem
  rcases List.mem_or_eq_of_mem_set hmem with hmem | rfl
  · exact h cs' hmem
  · exact hcs

theorem Justified.cons {s : CommitFinalizer} {first : CommitState} {rest : List CommitState}
    (h : Justified ctx certs rounds s) (hs : s.pendingCommits = first :: rest) {first' : CommitState}
    (hfirst : first'.Justified ctx certs rounds) :
    Justified ctx certs rounds { s with pendingCommits := first' :: rest } := by
  intro cs hmem
  rcases List.mem_cons.1 hmem with rfl | hmem
  · exact hfirst
  · exact h cs (hs ▸ List.mem_cons_of_mem _ hmem)

section Direct

variable {certifier : TransactionCertifier.CertifierState} (hcert : certifier ∈ certs)
include hcert

/-- A transaction rejected directly has reject votes of a quorum in the certifier. -/
theorem finalizeBlockVotes_justified {b : BlockRef} {votes : List (Nat × Nat)}
    (hvotes : certifier.getRejectVotes b = some votes) (cs : CommitState)
    (h : cs.Justified ctx certs rounds) :
    (finalizeBlockVotes ctx b votes cs).Justified ctx certs rounds := by
  refine foldl_justified (fun cs vote => by split <;> rfl) (fun cs' vote hvote _ h' => ?_) h
  split_ifs with hlt
  · exact h'.of_eq rfl rfl
  · refine h'.extendRejected fun i hi => .inl ⟨certifier, hcert, votes, hvotes, vote.2, ?_⟩
    rw [List.mem_singleton.1 hi]
    exact ⟨hvote, Nat.le_of_not_lt hlt⟩

theorem directFinalizeBlocks_justified {l : List (BlockRef × Nat)} {cs cs' : CommitState}
    (h : directFinalizeBlocks ctx certifier l cs = .ok cs') (hcs : cs.Justified ctx certs rounds) :
    cs'.Justified ctx certs rounds := by
  induction l generalizing cs with
  | nil =>
    cases h
    exact hcs
  | cons p rest ih =>
    obtain ⟨blockRef, numTransactions⟩ := p
    simp only [directFinalizeBlocks] at h
    split at h
    · cases h
    · rename_i votes hvotes
      obtain ⟨_, -, h⟩ := Except.bind_eq_ok.1 h
      exact ih h (finalizeBlockVotes_justified hcert hvotes cs hcs)

theorem tryDirectFinalizeCommit_justified {s s' : CommitFinalizer} {i : Nat}
    (h : tryDirectFinalizeCommit ctx certifier s i = .ok s') (hs : Justified ctx certs rounds s) :
    Justified ctx certs rounds s' := by
  unfold tryDirectFinalizeCommit at h
  split at h
  · cases h
  · rename_i cs hcs
    split at h
    · cases h
    · obtain ⟨cs', hcs', rfl⟩ := Except.bind_pure_eq_ok.1 h
      have hcs₀ : cs.Justified ctx certs rounds := hs cs (List.mem_of_getElem? hcs)
      exact hs.set (directFinalizeBlocks_justified hcert hcs' (hcs₀.of_eq rfl rfl))

theorem directFinalizeCommits_justified {s s' : CommitFinalizer} {is : List Nat}
    (h : directFinalizeCommits ctx certifier s is = .ok s') (hs : Justified ctx certs rounds s) :
    Justified ctx certs rounds s' := by
  induction is generalizing s with
  | nil =>
    cases h
    exact hs
  | cons i rest ih =>
    rcases directFinalizeCommits_cons_eq_ok ctx certifier h with h | rfl | ⟨s₁, h₁, h⟩
    · exact ih h hs
    · exact hs
    · exact ih h (tryDirectFinalizeCommit_justified hcert h₁ hs)

/-- A transaction rejected late has reject votes of a quorum in the certifier. -/
theorem lateRejected_justified {b : BlockRef} {pending : OrderedMap Nat Unit} {l : List Nat}
    (h : lateRejected ctx certifier b pending = .ok l) (leaderRound : Nat) {i : Nat}
    (hi : i ∈ l) : RejectionJustified ctx certs rounds leaderRound b i := by
  unfold lateRejected at h
  split at h
  · cases h
  · rename_i votes hvotes
    obtain ⟨index, -, hindex⟩ := Except.mem_of_filterMapM_eq_ok h hi
    split at hindex
    · cases hindex
    · rename_i stake hstake
      split_ifs at hindex with hlt
      · simp at hindex
      · simp only [Except.ok.injEq, Option.some.injEq] at hindex
        subst hindex
        -- the stake read is that of an entry of the votes
        obtain ⟨l₁, l₂, rfl, -⟩ := List.lookup_eq_some_iff.1 hstake
        exact .inl ⟨certifier, hcert, _, hvotes, stake, by simp, Nat.le_of_not_lt hlt⟩

end Direct

theorem Justified.head {s : CommitFinalizer} (h : Justified ctx certs rounds s)
    {first : CommitState} {rest : List CommitState} (hs : s.pendingCommits = first :: rest) :
    first.Justified ctx certs rounds :=
  h first (by rw [hs]; exact List.mem_cons_self)

section FirstCommit

variable {certifier : TransactionCertifier.CertifierState}

theorem checkPendingTransactionsInFirstCommit_justified (hcert : certifier ∈ certs)
    {s s' : CommitFinalizer} (h : checkPendingTransactionsInFirstCommit ctx certifier s = .ok s')
    (hs : Justified ctx certs rounds s) : Justified ctx certs rounds s' := by
  unfold checkPendingTransactionsInFirstCommit at h
  split at h
  · cases h
  · rename_i first rest hfirst
    obtain ⟨all, hall, rfl⟩ := Except.bind_pure_eq_ok.1 h
    refine hs.cons hfirst (foldl_justified (fun cs r => by simp [CommitState.extendRejected])
      (fun cs r hr _ h' => ?_) (hs.head hfirst))
    -- each block's rejections are those that `lateRejected` read off the certifier
    obtain ⟨e, -, he⟩ := Except.mem_of_mapM_eq_ok hall (List.mem_filter.1 hr).1
    obtain ⟨rejected, hrej, rfl⟩ := Except.bind_pure_eq_ok.1 he
    exact (h'.of_eq (removePendingTransactions_commit _ _ _)
      (removePendingTransactions_rejected _ _ _)).extendRejected
        fun i hi => lateRejected_justified hcert hrej _ hi

theorem tryIndirectFinalizePendingTransactionsInFirstCommit_justified {s s' : CommitFinalizer}
    (h : tryIndirectFinalizePendingTransactionsInFirstCommit ctx s = .ok s')
    (hs : Justified ctx certs rounds s) : Justified ctx certs rounds s' := by
  unfold tryIndirectFinalizePendingTransactionsInFirstCommit at h
  split at h
  · cases h
  · rename_i first rest hfirst
    obtain ⟨results, -, rfl⟩ := Except.bind_pure_eq_ok.1 h
    exact hs.cons hfirst (foldl_justified (fun cs r => removePendingTransactions_commit _ _ _)
      (fun cs r _ _ h' => h'.of_eq (removePendingTransactions_commit _ _ _)
        (removePendingTransactions_rejected _ _ _)) (hs.head hfirst))

theorem tryIndirectRejectPendingTransactionsInFirstCommit_justified {s s' : CommitFinalizer}
    (h : tryIndirectRejectPendingTransactionsInFirstCommit s = .ok s')
    (hs : Justified ctx certs rounds s) : Justified ctx certs rounds s' := by
  unfold tryIndirectRejectPendingTransactionsInFirstCommit at h
  split at h
  · rename_i first rest last hfirst hlast
    split_ifs at h with hdepth hblocks
    · cases h
      -- the last commit, led `INDIRECT_REJECT_DEPTH` rounds above, justifies every rejection
      have hround : last.commit.leader.round ∈ rounds :=
        (hs last (List.mem_of_getLast? hlast)).round_mem
      refine hs.cons hfirst (foldl_justified (fun cs e => rfl)
        (fun cs e _ hc h' => h'.extendRejected fun i _ => .inr ⟨_, hround, ?_⟩)
        ((hs.head hfirst).of_eq rfl rfl))
      rw [hc]
      exact hdepth
    · cases h
      exact hs
  · cases h

theorem tryIndirectFinalizeFirstCommit_justified (hcert : certifier ∈ certs)
    {s s' : CommitFinalizer} (h : tryIndirectFinalizeFirstCommit ctx certifier s = .ok s')
    (hs : Justified ctx certs rounds s) : Justified ctx certs rounds s' := by
  obtain ⟨s₁, s₂, h₁, h₂, h₃⟩ := tryIndirectFinalizeFirstCommit_eq_ok ctx certifier h
  exact tryIndirectRejectPendingTransactionsInFirstCommit_justified h₃
    (tryIndirectFinalizePendingTransactionsInFirstCommit_justified h₂
      (checkPendingTransactionsInFirstCommit_justified hcert h₁ hs))

end FirstCommit

/-- The output commit carries the rejections of its commit state, which arrived with none. -/
theorem finalizedCommit_justified {cs : CommitState} (h : cs.Justified ctx certs rounds) :
    OutputJustified ctx certs rounds cs.finalizedCommit := by
  intro b rejected hget i hi
  have hmem := OrderedMap.get?_eq_some_iff.1 hget
  simp only [CommitState.finalizedCommit, h.fresh] at hmem
  rcases OrderedMap.mem_foldl_insert (fun e : BlockRef × OrderedMap Nat Unit => e.1)
      (fun e => e.2.keys) _ hmem with
    hmem | ⟨e, he, he'⟩
  · exact absurd hmem List.not_mem_nil
  · simp only [Prod.mk.injEq] at he'
    obtain ⟨rfl, rfl⟩ := he'
    exact h.rejected e.1 e.2 (OrderedMap.get?_eq_some_iff.2 he) i hi

theorem popFinalized_justified {overflowChecks : Bool} {l : List CommitState}
    {blocks : OrderedMap BlockRef BlockState}
    {r : List CommittedSubDag × List CommitState × OrderedMap BlockRef BlockState}
    (h : popFinalized overflowChecks l blocks = .ok r) (hl : ∀ cs ∈ l, cs.Justified ctx certs rounds) :
    (∀ cs ∈ r.2.1, cs.Justified ctx certs rounds) ∧
      ∀ o ∈ r.1, OutputJustified ctx certs rounds o := by
  induction l generalizing blocks r with
  | nil =>
    cases h
    exact ⟨hl, by simp⟩
  | cons cs rest ih =>
    unfold popFinalized at h
    split_ifs at h
    · cases h
      exact ⟨hl, by simp⟩
    · obtain ⟨_, -, h⟩ := Except.bind_eq_ok.1 h
      obtain ⟨r', hr', rfl⟩ := Except.bind_pure_eq_ok.1 h
      obtain ⟨hrest, hout⟩ := ih hr' fun cs' hmem => hl cs' (List.mem_cons_of_mem _ hmem)
      refine ⟨hrest, fun o ho => ?_⟩
      rcases List.mem_cons.1 ho with rfl | ho
      · exact finalizedCommit_justified (hl cs List.mem_cons_self)
      · exact hout o ho

theorem popFinalizedCommits_justified {overflowChecks : Bool} {s : CommitFinalizer}
    {r : List CommittedSubDag × CommitFinalizer} (h : popFinalizedCommits overflowChecks s = .ok r)
    (hs : Justified ctx certs rounds s) :
    Justified ctx certs rounds r.2 ∧ ∀ o ∈ r.1, OutputJustified ctx certs rounds o := by
  unfold popFinalizedCommits at h
  obtain ⟨r', hr', rfl⟩ := Except.bind_pure_eq_ok.1 h
  exact popFinalized_justified hr' hs

section Process

variable {certifier : TransactionCertifier.CertifierState} (hcert : certifier ∈ certs)
include hcert

theorem indirectFinalizeCommits_justified {fuel : Nat} {s : CommitFinalizer}
    {r : List CommittedSubDag × CommitFinalizer}
    (h : indirectFinalizeCommits ctx certifier fuel s = .ok r)
    (hs : Justified ctx certs rounds s) :
    Justified ctx certs rounds r.2 ∧ ∀ o ∈ r.1, OutputJustified ctx certs rounds o := by
  induction fuel generalizing s r with
  | zero =>
    cases h
    exact ⟨hs, by simp⟩
  | succ fuel ih =>
    rcases indirectFinalizeCommits_succ_eq_ok ctx certifier h with rfl | ⟨s₁, popped, h₁, h₂, hr⟩
    · exact ⟨hs, by simp⟩
    · obtain ⟨hpop, hout⟩ := popFinalizedCommits_justified h₂
        (tryIndirectFinalizeFirstCommit_justified hcert h₁ hs)
      rcases hr with ⟨-, rfl⟩ | ⟨r', hr', rfl⟩
      · exact ⟨hpop, by simp⟩
      · obtain ⟨hrest, hout'⟩ := ih hr' hpop
        exact ⟨hrest, fun o ho => (List.mem_append.1 ho).elim (hout o) (hout' o)⟩

theorem processCommit_justified {s : CommitFinalizer} {d : CommittedSubDag}
    {r : List CommittedSubDag × CommitFinalizer} (hround : d.leader.round ∈ rounds)
    (hfresh : d.rejectedTransactionsByBlock = OrderedMap.empty)
    (h : processCommit ctx certifier s d = .ok r) (hs : Justified ctx certs rounds s) :
    Justified ctx certs rounds r.2 ∧ ∀ o ∈ r.1, OutputJustified ctx certs rounds o := by
  obtain ⟨cs, s₁, direct, -, hcs, h₁, h₂, hr⟩ := processCommit_eq_ok ctx certifier h
  -- the new commit state arrives with nothing rejected
  have hnew : cs.Justified ctx certs rounds := by
    obtain ⟨_, rfl⟩ := commitState_new_eq_ok hcs
    exact ⟨hfresh, hround, fun _ _ hget => nomatch hget⟩
  have hpush : Justified ctx certs rounds
      { s with
        lastProcessedCommit := some d.commitIndex
        pendingCommits := s.pendingCommits ++ [cs] } := by
    intro cs' hmem
    rcases List.mem_append.1 hmem with hmem | hmem
    · exact hs cs' hmem
    · rw [List.mem_singleton.1 hmem]
      exact hnew
  obtain ⟨hdirect, hout⟩ := popFinalizedCommits_justified h₂
    (directFinalizeCommits_justified hcert h₁ hpush)
  rcases hr with ⟨-, rfl⟩ | ⟨-, blocks, indirect, -, -, -, h₃, rfl⟩
  · exact ⟨hdirect, hout⟩
  · obtain ⟨hind, hout'⟩ := indirectFinalizeCommits_justified hcert h₃ hdirect
    exact ⟨hind, fun o ho => (List.mem_append.1 ho).elim (hout o) (hout' o)⟩

end Process

/-- The run lemma: over inputs whose certifier states are among `certs` and whose
leaders are at `rounds`, every buffered commit stays justified and every output is. -/
theorem processCommits_justified
    {inputs : List (TransactionCertifier.CertifierState × CommittedSubDag)}
    (hin : ∀ p ∈ inputs, p.1 ∈ certs ∧ p.2.leader.round ∈ rounds ∧
      p.2.rejectedTransactionsByBlock = OrderedMap.empty)
    {s : CommitFinalizer} {r : List CommittedSubDag × CommitFinalizer}
    (h : processCommits ctx s inputs = .ok r) (hs : Justified ctx certs rounds s) :
    Justified ctx certs rounds r.2 ∧ ∀ o ∈ r.1, OutputJustified ctx certs rounds o := by
  induction inputs generalizing s r with
  | nil =>
    cases h
    exact ⟨hs, by simp⟩
  | cons input rest ih =>
    obtain ⟨certifier, d⟩ := input
    obtain ⟨r₁, h₁, h⟩ := Except.bind_eq_ok.1 h
    obtain ⟨r₂, h₂, rfl⟩ := Except.bind_pure_eq_ok.1 h
    obtain ⟨hcert, hround, hfresh⟩ := hin _ List.mem_cons_self
    obtain ⟨hs₁, hout₁⟩ := processCommit_justified hcert hround hfresh h₁ hs
    obtain ⟨hs₂, hout₂⟩ := ih (fun p hp => hin p (List.mem_cons_of_mem _ hp)) h₂ hs₁
    exact ⟨hs₂, fun o ho => (List.mem_append.1 ho).elim (hout₁ o) (hout₂ o)⟩

end Rejections

/-- From a new finalizer, over commits that arrive with no rejections recorded, every
transaction that an output commit lists as rejected in a block was rejected by a quorum in
the certifier state of one of the calls, or the commit was followed by one led
`INDIRECT_REJECT_DEPTH` rounds above its leader. -/
theorem processCommits_rejections_justified (ctx : Context)
    (inputs : List (TransactionCertifier.CertifierState × CommittedSubDag))
    (hfresh : ∀ p ∈ inputs, p.2.rejectedTransactionsByBlock = OrderedMap.empty)
    {r : List CommittedSubDag × CommitFinalizer} (h : processCommits ctx new inputs = .ok r) :
    ∀ o ∈ r.1, ∀ b rejected, o.rejectedTransactionsByBlock.get? b = some rejected →
      ∀ i ∈ rejected, RejectionJustified ctx (inputs.map (·.1)) (inputs.map (·.2.leader.round))
        o.leader.round b i := by
  have hin : ∀ p ∈ inputs, p.1 ∈ inputs.map (·.1) ∧
      p.2.leader.round ∈ inputs.map (·.2.leader.round) ∧
        p.2.rejectedTransactionsByBlock = OrderedMap.empty :=
    fun p hp => ⟨List.mem_map_of_mem hp, List.mem_map_of_mem hp, hfresh p hp⟩
  exact (processCommits_justified hin h fun _ hmem => nomatch hmem).2

namespace TwoCommits

open ByzantineRejectVotes

/-- Transaction 5 of the target, output as rejected, has the reject votes of a quorum. -/
theorem processCommits_rejections_justified_twoCommits :
    (∀ p ∈ inputs, p.2.rejectedTransactionsByBlock = OrderedMap.empty) ∧
      ∀ o ∈ outputs, ∀ b rejected, o.rejectedTransactionsByBlock.get? b = some rejected →
        ∀ i ∈ rejected, RejectionJustified ctx (inputs.map (·.1))
          (inputs.map (·.2.leader.round)) o.leader.round b i :=
  ⟨by decide, @processCommits_rejections_justified ctx inputs (by decide) (outputs, final)
    processCommits_twoCommits⟩

end TwoCommits

end CommitFinalizer

end Rtd
