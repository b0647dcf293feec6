import Rtd.BaseCommitter

/-!
`UniversalCommitter::try_decide` (`consensus/core/src/universal_committer.rs`):
the committers decide the slots from the highest round down to the last decided
one, and the decided sequence is the longest prefix of decided leaders.

The metrics that `update_metrics` records are left out.
-/

set_option autoImplicit false

namespace Rtd

structure UniversalCommitter where
  /-- `protocol_config.mysticeti_num_leaders_per_round()`. -/
  numLeadersPerRound : Option Nat
  committers : List BaseCommitter

namespace UniversalCommitter

variable (v : DagView) (lastDecided : Slot)

/-- The inner loop over the committers of one round, in reverse order. The deque of
statuses grows at the front, so it lists the slots decided so far from the lowest
up; the flag says that the last decided slot was reached (`break 'outer`). -/
def decideRound (round : Nat) :
    List BaseCommitter → List (LeaderStatus × Decision) →
      Except CommitPanic (List (LeaderStatus × Decision) × Bool)
  | [], leaders => .ok (leaders, false)
  | committer :: rest, leaders =>
    match committer.electLeader round with
    | none => decideRound round rest leaders
    | some slot =>
      if slot = lastDecided then .ok (leaders, true)
      else do
        let status ← committer.tryDirectDecide v slot
        if status.isDecided then decideRound round rest ((status, .direct) :: leaders)
        else
          let status ← committer.tryIndirectDecide v slot (leaders.map Prod.fst)
          decideRound round rest ((status, .indirect) :: leaders)

/-- The outer loop, over the rounds in decreasing order. -/
def decideRounds (committers : List BaseCommitter) :
    List Nat → List (LeaderStatus × Decision) →
      Except CommitPanic (List (LeaderStatus × Decision))
  | [], leaders => .ok leaders
  | round :: rest, leaders => do
    let (leaders, stop) ← decideRound v lastDecided round committers leaders
    if stop then .ok leaders else decideRounds committers rest leaders

/-- The longest prefix of decided leaders; genesis leaders are passed over. -/
def decidedPrefix : List (LeaderStatus × Decision) → List DecidedLeader
  | [] => []
  | (leader, decision) :: rest =>
    if leader.round = genesisRound then decidedPrefix rest
    else
      match leader.intoDecidedLeader (decision = .direct) with
      | none => []
      | some decidedLeader => decidedLeader :: decidedPrefix rest

/-- The rounds `try_decide` visits: from the last round up to two below the highest
accepted round, highest first. -/
def decideRoundsRange (lastRound highestAcceptedRound : Nat) : List Nat :=
  (List.range' lastRound (highestAcceptedRound - 2 + 1 - lastRound)).reverse

/-- The lowest round `try_decide` visits. With one leader per round, no leader of the
last decided round is committed. -/
def lastRound (u : UniversalCommitter) : Nat :=
  match u.numLeadersPerRound with
  | some 1 => lastDecided.round + 1
  | _ => lastDecided.round

def tryDecide (u : UniversalCommitter) : Except CommitPanic (List DecidedLeader) := do
  let highestAcceptedRound := v.highestAcceptedRound
  let leaders ← decideRounds v lastDecided u.committers.reverse
    (decideRoundsRange (lastRound lastDecided u) highestAcceptedRound) []
  pure (decidedPrefix leaders)

end UniversalCommitter

/-- `UniversalCommitterBuilder::build`: for each pipeline stage (one per round of a
wave when pipelining, else one) a committer per leader offset. -/
def UniversalCommitterBuilder.build (committee : Committee) (leaderSchedule : Nat → Nat → Nat)
    (numLeadersPerRound : Option Nat) (waveLength numberOfLeaders : Nat) (pipeline : Bool) :
    UniversalCommitter :=
  let pipelineStages := if pipeline then waveLength else 1
  ⟨numLeadersPerRound, (List.range pipelineStages).flatMap fun roundOffset =>
    (List.range numberOfLeaders).map fun leaderOffset =>
      ⟨committee, leaderSchedule, ⟨waveLength, leaderOffset, roundOffset⟩⟩⟩

end Rtd
