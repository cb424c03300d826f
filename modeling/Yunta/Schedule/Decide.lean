/-
  The scheduler's decision: what a run does next, from its workflow, the state its log derives and
  the policy it was frozen with.

  1. **The board** — the nodes the mode includes, what each waits on under it, and which of them
     only a reroute may start.

  2. **The questions** — each its own function, asked in order: a gate mid-flight, a node waiting on
     a person, an answer whose terminal is owed, orphans of a crash, a failure, a stale invariant.

  3. **What is ready** — a gate, then fresh nodes up to the capacity, and what it means when nothing
     is.  `decide` puts the run's owed measurement before the answer where the answer waits for it.
-/
import Yunta.Replay.Decisions
import Yunta.Schedule.Decision
import Yunta.Workflow.Modes

set_option linter.unusedVariables false

namespace Yunta

/-! ## The board -/

/-- Everything the questions read, resolved once. -/
structure Board where
  nodes : List Node
  dependencies : OrdMap NodeId (List NodeId)
  rerouteOnly : List NodeId
  state : RunState
  policy : Policy

/-- The nodes a node's own declaration may send the run to. -/
def rerouteTargets (node : Node) : List NodeId :=
  (node.onFailure.map (·.goto)).toList ++
    match node.kind with
    | .gate on _ _ => on.map (·.2)
    | _ => []

/-- The nodes only a reroute or a gate's `on:` may ever start: its targets that wait on nothing and
    that nothing waits on. -/
def rerouteOnlyTargets (nodes : List Node) (dependencies : OrdMap NodeId (List NodeId)) :
    List NodeId :=
  let depsOf : NodeId → List NodeId := fun id => (dependencies[id]?).getD []
  (nodes.flatMap rerouteTargets).filter fun id =>
    (depsOf id).isEmpty && !nodes.any fun node => (depsOf node.id).contains id

namespace Board

def of (workflow : Workflow) (state : RunState) (policy : Policy) : Board :=
  let nodes := workflow.nodes.filter fun node => isIncluded policy.modeNodes node.id
  let dependencies := dependenciesInMode workflow policy.modeNodes
  ⟨nodes, dependencies, rerouteOnlyTargets nodes dependencies, state, policy⟩

variable (board : Board)

def depsOf (id : NodeId) : List NodeId := (board.dependencies[id]?).getD []

def finished (id : NodeId) : Bool := (board.state.nodes.state id).any NodeState.isFinished

/-- The walk of `dependsOn`, with its stack (its top first) and what it has seen.  A dependency
    pushes what it waits on once, so twice the edges bound the pops. -/
def waitsFor (on : NodeId) : Nat → List NodeId → List NodeId → Bool
  | 0, _, _ => false
  | _, [], _ => false
  | fuel + 1, dep :: stack, seen =>
    if dep = on then true
    else if dep ∈ seen then waitsFor on fuel stack seen
    else waitsFor on fuel ((board.depsOf dep).reverse ++ stack) (dep :: seen)

/-- Whether `id` waits for `on`, directly or through others. -/
def dependsOn (id on : NodeId) : Bool :=
  let edges := (board.dependencies.toList.map fun entry => entry.2.length).sum
  board.waitsFor on (2 * edges + 1) (board.depsOf id).reverse []

def depsSatisfied (node : Node) : Bool := (board.depsOf node.id).all board.finished

/-- The attempt number a node's next start carries. -/
def nextAttempt (id : NodeId) : Nat := ((board.state.nodes.get id).map (·.attempts)).getD 0 + 1

/-- How a ready or re-opened gate is driven: poll the handle it was published under, publish it for
    the first time, or ask here. -/
def driveGate (node : Node) : Decision :=
  match board.state.gates.lastExternalRef node.id, isExternalGate node with
  | some externalRef, _ => .pollGate node.id externalRef
  | none, true => .publishGate node.id
  | none, false => .resolveInternalGate node.id

end Board

/-! ## Gates, people and orphans -/

/-- A running gate is driven again, never restarted as an ordinary node. -/
def gateStep (board : Board) : Option Decision :=
  (board.nodes.find? fun node => isGate node && board.state.isRunning node.id).map board.driveGate

/-- What a waiting node waits on decides, never what kind of node it is. -/
def waitingStep (board : Board) : Option Decision :=
  board.nodes.findSome? fun node =>
    match board.state.nodes.state node.id with
    | some (.waiting (.gate externalRef)) =>
      some (match externalRef, isExternalGate node with
        | some externalRef, _ => .pollGate node.id externalRef
        | none, true => .publishGate node.id
        | none, false => .resolveInternalGate node.id)
    | some (.waiting (.questions _)) => some (.askQuestions node.id)
    | _ => none

/-- A node whose questions were answered owes the terminal its close deferred. -/
def answeredStep (board : Board) : Option Decision :=
  (board.nodes.find? fun node => board.state.answeredUnfinished node.id).map fun node =>
    .finishAnswered node.id

/-- The orphans a resume finds among `nodes`, each with the `on_interrupt` it resolves to. -/
def resumePolicies (nodes : List Node) (state : RunState) (default_ : OnInterrupt) :
    List ResumePolicy :=
  (nodes.filter fun node => !isGate node && state.isRunning node.id).map fun node =>
    ⟨node.id, node.onInterrupt.getD default_⟩

/-- Orphans restart together, unless one of them is uncertain: then the whole resume pauses. -/
def orphanStep (board : Board) : Option Decision :=
  let orphaned := resumePolicies board.nodes board.state board.policy.onInterrupt
  if orphaned.isEmpty then none
  else
    let uncertain :=
      (orphaned.filter fun policy => policy.onInterrupt = .failIfUncertain).map (·.node)
    if !uncertain.isEmpty then some (.pause (.uncertainOrphans uncertain))
    else
      some (.execute (orphaned.map fun policy => (policy.node, board.nextAttempt policy.node)))

/-! ## Failures -/

namespace Board

variable (board : Board)

/-- Whether a person may widen `node`'s scope by what `failure` needs. -/
def grantable (node : Node) (failure : Failure) : Bool :=
  let widenable := board.policy.grantsScope && node.writesWorktree && failure.wantsScope
  let offered (paths : List ScopeGlob) : Bool :=
    match nodeOffer paths board.policy.reachedBy widenable with
    | .ok _ => true
    | .error _ => false
  match failure with
  | .scopeOwed owed => owed.any fun request => offered request.paths
  | _ => (failure.scopeWanted board.policy.exactGlob).any offered

/-- What the log holds beside `failure` of `node`. -/
def factsOf (node : Node) (failure : Failure) (failedAt : Int) : Facts where
  failedAt
  continuable := board.state.tasks.continuableBy node.id
  mayGrant := board.grantable node failure
  treeMoved := board.state.treeMovedSinceFailure node.id

/-- Whether a person chose to run `id` again after its latest failure, and the menu that failure
    offers now still offers that choice. -/
def retryChosen (id : NodeId) (outlook : Outlook) : Bool :=
  match outlook with
  | .choose remedies =>
    (board.state.runAgainChosen id).any fun option =>
      remedies.any fun remedy => remedy.option = option
  | _ => false

/-- What a failed node does under `on_failure: pause`. -/
def pausedFailure (node : Node) (failure : Failure) (outlook : Outlook) : Decision :=
  let nextAttempt := board.nextAttempt node.id
  match outlook with
  | .waitUntil at_ =>
    if board.state.resetWaited node.id at_ then .execute [(node.id, nextAttempt)]
    else .waitUntil node.id at_
  | outlook =>
    if isGate node then .pause (.nodeFailed node.id failure)
    else if board.retryChosen node.id outlook then .execute [(node.id, nextAttempt)]
    else .escalateFailure node.id failure nextAttempt outlook

/-- Whether a reroute can change how `failure` ends. -/
def correctionCanChange (failure : Failure) (outlook : Outlook) : Bool :=
  let repeatsAPlan :=
    match failure with
    | .unchanged _ (.planUnpassable _) => true
    | _ => false
  let waits :=
    match outlook with
    | .waitUntil _ => true
    | _ => false
  let frozen :=
    match outlook with
    | .stuck .frozenConfig | .stuck .frozenInput => true
    | _ => false
  !repeatsAPlan && !waits && !frozen

/-- A failure with no reroute after it: its own `on_failure` reroutes or escalates, and a node
    without one leaves the decision to the policy. -/
def unrerouted (node : Node) (failure : Failure) (reroutes : Nat) (failedAt : Int) :
    Option Decision :=
  let outlook := failure.remedies (board.factsOf node failure failedAt)
  match node.onFailure.filter fun _ => correctionCanChange failure outlook with
  | some onFailure =>
    if reroutes < onFailure.maxReroutes then
      some (.reroute node.id onFailure.goto (reroutes + 1) onFailure.maxReroutes failure)
    else some (.gateExhaustedReroutes node.id onFailure.goto onFailure.maxReroutes failure)
  | none =>
    match board.policy.onFailure with
    | .pause => some (board.pausedFailure node failure outlook)
    | .abort => some (.fail node.id failure)
    | .continue_ => none

/-- A node between a correction and the node that failed, still holding what it made before the
    correction. -/
inductive Stale where
  | rerun (id : NodeId)
  | failed
  deriving DecidableEq

/-- The nodes downstream of `goto` and upstream of `failed`. -/
def between (goto failed : NodeId) : List NodeId :=
  ((board.nodes.map (·.id)).filter fun id => id != goto && id != failed).filter fun id =>
    board.dependsOn id goto && board.dependsOn failed id

/-- Whether `id` last finished before the correction did at `corrected`. -/
def staleSince (corrected : Nat) (id : NodeId) : Bool :=
  ((board.state.nodes.get id).bind (·.lastFinished)).all (· < corrected)

/-- The first node downstream of `goto` and upstream of `failed` that last finished before `goto`
    did at `corrected`, among those whose own inputs between the two are fresh. -/
def staleBetween (goto failed : NodeId) (corrected : Nat) : Option Stale :=
  let between := board.between goto failed
  let next :=
    between.find? fun id =>
      board.staleSince corrected id &&
        (board.depsOf id).all fun dep => !between.contains dep || !board.staleSince corrected dep
  next.map fun next =>
    if ((board.state.nodes.get next).bind (·.lastFailed)).any (corrected < ·) then .failed
    else .rerun next

/-- A failure already rerouted to `goto`: what happens next depends on where that correction got
    to. -/
def afterReroute (node : Node) (goto : NodeId) (rerouteSeq : Nat) : Option Decision :=
  let corrective := (board.state.nodes.get goto).getD {}
  match corrective.lastFinished.filter (rerouteSeq < ·) with
  | some corrected =>
    match board.staleBetween goto node.id corrected with
    | some (.rerun id) =>
      match board.nodes.find? fun n => n.id = id with
      | some gate =>
        if isGate gate then some (board.driveGate gate)
        else some (.execute [(id, board.nextAttempt id)])
      | none => some (.execute [(id, board.nextAttempt id)])
    -- its own failure is its own to resolve, on its turn
    | some .failed => none
    | none =>
      if isGate node then some (board.driveGate node)
      else some (.execute [(node.id, board.nextAttempt node.id)])
  | none =>
    if corrective.lastFailed.any (rerouteSeq < ·) then none
    else some (.execute [(goto, board.nextAttempt goto)])

/-- What a failed node's failure asks for, if it asks for anything now. -/
def failureOf (node : Node) : Option Decision :=
  match board.state.nodes.state node.id with
  | some (.failed failure _) =>
    let record := (board.state.nodes.get node.id).getD {}
    match record.lastReroute.filter fun reroute => record.lastFailed.all (· < reroute.seq) with
    | none =>
      board.unrerouted node failure record.onFailureReroutes (record.lastTerminalAt.getD 0)
    | some reroute => board.afterReroute node reroute.toNode reroute.seq
  | _ => none

end Board

/-- Failures, one at a time. -/
def failureStep (board : Board) : Option Decision := board.nodes.findSome? board.failureOf

/-! ## Stale invariants -/

namespace Board

variable (board : Board)

/-- The included nodes whose pass is a verdict on the run's tree. -/
def verifiers : List Node := board.nodes.filter (·.verifiesTheTree)

/-- The run's newest tree, an invariant's own close left out. -/
def latest : Option (Nat × TreeId) :=
  board.state.newestTree fun id => !board.verifiers.any fun node => node.id = id

/-- Whether an invariant's pass no longer speaks for the run's tree. -/
def isStale (node : Node) : Bool :=
  (board.state.nodes.get node.id).any fun record =>
    let changedAfter :=
      board.latest.any fun newest =>
        record.lastFinished.any (· < newest.1) && record.leftTree.any (· != newest.2)
    record.state.any NodeState.isFinished && (record.treeMoved || changedAfter)

/-- Whether any record of the run's, on the board or not, is running. -/
def anyRunning : Bool := board.state.nodes.values.any fun r => r.state.any NodeState.isRunning

end Board

/-- The first invariant whose pass no longer speaks for the run's tree runs again, alone, once
    nothing else is running. -/
def reverifyStep (board : Board) : Option Decision :=
  if board.anyRunning then none
  else
    (board.verifiers.find? board.isStale).map fun stale =>
      .execute [(stale.id, board.nextAttempt stale.id)]

/-! ## What is ready -/

/-- Whether `node` may start now, for the first time. -/
def Board.isFresh (board : Board) (node : Node) : Bool :=
  !board.state.nodes.hasState node.id && !board.rerouteOnly.contains node.id &&
    board.depsSatisfied node

/-- A ready gate is never batched with ordinary nodes. -/
def readyGate (board : Board) : Option Decision :=
  (board.nodes.find? fun node => isGate node && board.isFresh node).map board.driveGate

/-- Fresh nodes whose dependencies are all finished, up to capacity, in declaration order. -/
def readyNodes (board : Board) : Option Decision :=
  let capacity := max board.policy.maxParallelNodes 1
  let ready := board.nodes.filter fun node => !isGate node && board.isFresh node
  let batch := (ready.take capacity).map fun node => (node.id, 1)
  if batch.isEmpty then none else some (.execute batch)

/-- Whether `node` keeps the run from finishing: it is not finished, and it is no untouched target
    of a reroute. -/
def Board.isUnfinished (board : Board) (node : Node) : Bool :=
  !board.finished node.id &&
    !(board.rerouteOnly.contains node.id && !board.state.nodes.hasState node.id)

/-- What a node that failed ends a run with that went on past its failure. -/
def Board.failedNode (board : Board) (node : Node) : Option Decision :=
  match board.state.nodes.state node.id with
  | some (.failed failure _) => some (.fail node.id failure)
  | _ => none

/-- Nothing is runnable: either every node this mode includes finished, or something is stuck. -/
def nothingRunnable (board : Board) : Decision :=
  match board.nodes.find? board.isUnfinished with
  | none => .finish
  | some stuck =>
    let blocked : Decision :=
      .pause (.blocked stuck.id ((board.depsOf stuck.id).filter fun dep => !board.finished dep))
    match board.policy.onFailure with
    | .continue_ => (board.nodes.findSome? board.failedNode).getD blocked
    | _ => blocked

def readyBatch (board : Board) : Decision :=
  (readyGate board <|> readyNodes board).getD (nothingRunnable board)

/-! ## The measurement, and the decision -/

/-- What of the measurement this run's lineage declared its log does not hold. -/
def owedBaseline (state : RunState) (policy : Policy) : Option Owed :=
  match policy.baselineSuite with
  | none => none
  | some suite =>
    if state.run.baseline.any fun held => held.origin != .measured then none
    else
      let owed : Owed :=
        ⟨if state.run.baseline.isNone then some suite else none,
          policy.baselineHeld.filter fun command => !state.run.held.contains command.1⟩
      if owed.isEmpty then none else some owed

/-- Whether `step` waits for the measurement. -/
def reads (workflow : Workflow) (policy : Policy) (step : Decision) : Bool :=
  let waits (id : NodeId) : Bool :=
    (workflow.iterNodes.find? fun node => node.id = id).any waitsForTheMeasurement
  match step with
  | .execute batch => batch.any fun member => waits member.1
  | .publishGate id | .pollGate id _ | .resolveInternalGate id => waits id
  | .gateExhaustedReroutes .. => policy.mayPromote
  | _ => false

/-- `next`, unless the run owes its measurement before it. -/
def before (workflow : Workflow) (state : RunState) (policy : Policy) (next : Decision) :
    Decision :=
  match owedBaseline state policy with
  | some owed =>
    if !policy.measuresAside || reads workflow policy next then .measureBaseline owed else next
  | none => next

/-- What the questions and the ready set answer, before the measurement is asked for. -/
def Board.next (board : Board) : Decision :=
  (gateStep board <|> waitingStep board <|> answeredStep board <|> orphanStep board <|>
    failureStep board <|> reverifyStep board).getD (readyBatch board)

/-- What the run does next. -/
def decide (workflow : Workflow) (state : RunState) (policy : Policy) : Decision :=
  match state.broken with
  | some diagnostic => .broken diagnostic
  | none => before workflow state policy (Board.of workflow state policy).next

end Yunta
