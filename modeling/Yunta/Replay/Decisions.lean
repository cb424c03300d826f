/-
  What a person decided about a node, and where the run's tree stands, read off the run's state.

  `runAgainChosen` reads three ledgers at once: the gate ledger holds the choice and the question
  after it, the node ledger what the run did since, and the run ledger the pause that ends the
  choice's window.
-/
import Yunta.Replay.State

set_option linter.unusedVariables false

namespace Yunta.RunState

/-! ## Choices -/

/-- The choice a person made about `node` after its latest failure, and where the log holds it. -/
def choiceAfterFailure (s : RunState) (node : NodeId) : Option (Nat × HumanChoice) := do
  let failed ← (s.nodes.get node).bind (·.lastFailed)
  let record ← s.gates.get node
  let (resolution, at_) ← record.ownResolutions.getLast?
  match resolution with
  | .chosen choice => if failed < at_ then some (at_, choice) else none
  | _ => none

/-- Whether the resolution at `at_` on `node`'s gate has nothing after it that consumed it: no
    question that stands, no terminal, no reroute, no pause. -/
def unconsumed (s : RunState) (node : NodeId) (at_ : Nat) : Bool :=
  let after : Option Nat → Bool := fun seq => seq.all (· < at_)
  let standing := ((s.gates.get node).bind (·.waiting)).map (·.2)
  let terminal := (s.nodes.get node).bind (·.lastTerminal)
  let rerouted := ((s.nodes.get node).bind (·.lastReroute)).map (·.seq)
  after terminal && after rerouted && after s.run.lastPausedAt && after standing

/-- The option a person chose to run `node` again after its latest failure, while nothing has acted
    on that choice. -/
def runAgainChosen (s : RunState) (node : NodeId) : Option ReservedOption := do
  let record ← s.gates.get node
  let (resolution, at_) ← record.ownResolutions.getLast?
  match resolution with
  | .chosen choice =>
    let option ← ReservedOption.of choice.option
    if option.runsAgain && s.unconsumed node at_ then some option else none
  | _ => none

/-- Whether the run paused awaiting `node`'s limit to reset at `at_`, and a wake logged at or after
    that reset has resumed it. -/
def resetWaited (s : RunState) (node : NodeId) (at_ : Int) : Bool :=
  (s.run.lastPause.any fun pause => pause.1 == .awaitingReset node at_) &&
    s.run.paused.isNone && s.run.resumedAt.any (at_ ≤ ·)

/-! ## The run's tree -/

/-- The run's tree as its newest record says it stands: a start, a close that `countsClose` admits,
    or the tree the latest wake found, whichever came last. -/
def newestTree (s : RunState) (countsClose : NodeId → Bool) : Option (Nat × TreeId) :=
  match s.nodes.latestTree countsClose, s.run.wokeOn with
  | none, woke => woke
  | some latest, none => some latest
  | some latest, some woke => if latest.1 ≤ woke.1 then some woke else some latest

/-- Whether the run's tree moved since `node`'s latest failure left it. -/
def treeMovedSinceFailure (s : RunState) (node : NodeId) : Bool :=
  match (s.nodes.get node).bind (·.failedTree) with
  | none => false
  | some failed => (s.newestTree fun _ => true).any fun newest => newest.2 != failed

end Yunta.RunState
