/-
  State derivation by replay: a run's whole state read back off its event log.

  1. **State** — `RunState` holds one ledger for each domain, the states its waits interrupted
     (`preGate`), the clock and the activity.  `RunState.Same` is the source's equality: every
     fact but the clock and the activity.

  2. **Refusal** — `refuse` answers, before any ledger moves, whether an event can follow what the
     state holds.  `gateTransition` is the one owner step that reaches two ledgers.

  3. **Application** — `apply` refuses, records a suspension, books the stretch, hands the event
     to its owners and counts it.  It answers the state it leaves beside its result, so that what
     an error leaves behind is a question the model can ask.  `derive` folds a log, and marks the
     result broken at the first event refused.
-/
import Yunta.Lib.Replay
import Yunta.Ledgers.Scope
import Yunta.Ledgers.Findings
import Yunta.Ledgers.Artifacts
import Yunta.Ledgers.Children
import Yunta.Replay.Clock

set_option linter.unusedVariables false

namespace Yunta

/-! ## Activity -/

structure Submissions where
  accepted : Nat := 0
  refused : Nat := 0
  deriving DecidableEq

structure FindingActivity where
  posted : Nat := 0
  updated : Nat := 0
  withdrawn : Nat := 0
  refused : Nat := 0
  answered : Nat := 0
  proved : Nat := 0
  deriving DecidableEq

/-- The submissions and finding calls a log carries, for the run and for each node that made one,
    and how many events each node's envelope names. -/
structure Activity where
  submissions : Submissions := {}
  submissionsByNode : OrdMap NodeId Submissions := ∅
  findings : FindingActivity := {}
  findingsByNode : OrdMap NodeId FindingActivity := ∅
  eventsByNode : OrdMap NodeId Nat := ∅

namespace Activity

/-- Adds one to the same counter of the run's own tally and of the node's. -/
def countSubmission (a : Activity) (node : Option NodeId) (f : Submissions → Submissions) :
    Activity :=
  { a with
    submissions := f a.submissions
    submissionsByNode :=
      match node with
      | some node => OrdMap.upsert a.submissionsByNode node {} f
      | none => a.submissionsByNode }

def countFinding (a : Activity) (node : Option NodeId) (f : FindingActivity → FindingActivity) :
    Activity :=
  { a with
    findings := f a.findings
    findingsByNode :=
      match node with
      | some node => OrdMap.upsert a.findingsByNode node {} f
      | none => a.findingsByNode }

/-- Counts `event` when it is a submission or a finding call, and the node it names. -/
def apply (a : Activity) (event : StoredEvent) : Activity :=
  let a :=
    { a with
      eventsByNode :=
        match event.nodeId with
        | some node => OrdMap.upsert a.eventsByNode node 0 (· + 1)
        | none => a.eventsByNode }
  match event.payload with
  | some (.artifacts (.submitted p)) =>
    a.countSubmission event.nodeId fun s =>
      match p.outcome with
      | .accepted _ => { s with accepted := s.accepted + 1 }
      | .refused _ => { s with refused := s.refused + 1 }
  | some (.findings (.posted _)) =>
    a.countFinding event.nodeId fun f => { f with posted := f.posted + 1 }
  | some (.findings (.updated _)) =>
    a.countFinding event.nodeId fun f => { f with updated := f.updated + 1 }
  | some (.findings (.withdrawn _)) =>
    a.countFinding event.nodeId fun f => { f with withdrawn := f.withdrawn + 1 }
  | some (.findings .refused) =>
    a.countFinding event.nodeId fun f => { f with refused := f.refused + 1 }
  | some (.findings (.answered _)) =>
    a.countFinding event.nodeId fun f => { f with answered := f.answered + 1 }
  | some (.findings (.proved _)) =>
    a.countFinding event.nodeId fun f => { f with proved := f.proved + 1 }
  | _ => a

end Activity

/-! ## State -/

/-- Every fold of a run's log, in one value. -/
structure RunState where
  run : RunLedger := {}
  nodes : NodeLedger := {}
  degradations : DegradationLedger := {}
  tasks : TaskLedger := {}
  grants : GrantLedger := {}
  findings : FindingLedger := {}
  artifacts : ArtifactLedger := {}
  gates : GateLedger := {}
  children : ChildLedger := {}
  /-- Every event under a kind this binary does not know, by position and kind name. -/
  unknownKinds : List (Nat × String) := []
  /-- The diagnostic of the event replay stopped at. -/
  broken : Option String := none
  /-- What a node was before the fact that opened its wait. -/
  preGate : OrdMap NodeId (Option NodeState) := ∅
  clock : Timeline := {}
  activity : Activity := {}
  /-- Whether the last event applied was a pause. -/
  tailPaused : Bool := false

namespace RunState

/-- Two states are the same when they derive the same facts: the clock and the activity are read
    beside those facts and are left out of the comparison. -/
structure Same (s t : RunState) : Prop where
  run : s.run = t.run
  nodes : s.nodes = t.nodes
  degradations : s.degradations = t.degradations
  tasks : s.tasks = t.tasks
  grants : s.grants = t.grants
  findings : s.findings = t.findings
  artifacts : s.artifacts = t.artifacts
  gates : s.gates = t.gates
  children : s.children = t.children
  unknownKinds : s.unknownKinds = t.unknownKinds
  broken : s.broken = t.broken
  preGate : s.preGate = t.preGate
  tailPaused : s.tailPaused = t.tailPaused

/-- Where the run's wall-clock went, up to `til`. -/
def timeSpent (s : RunState) (til : Option Int) : TimeSpent :=
  s.clock.spent (Open.of s.run s.nodes s.gates s.tasks) s.run.suspensions til

/-- The awake time from the first event to `til`, or to the last applied event. -/
def elapsed (s : RunState) (til : Option Int) : Option Nat :=
  (s.clock.window til).map fun span => s.run.suspensions.awakeBetween span.1 span.2

/-- Whether `node`'s questions were answered and its close still owes it a terminal. -/
def answeredUnfinished (s : RunState) (node : NodeId) : Bool :=
  let owed :=
    (s.nodes.get node).any fun record =>
      let answeredAt :=
        ((s.gates.get node).bind (·.rounds.getLast?)).bind (·.answeredAt)
      match answeredAt, record.lastTerminal with
      | some answered, some terminal => terminal < answered
      | some _, none => true
      | none, _ => false
  s.gates.answered node && owed

end RunState

/-! ## Refusal -/

/-- The point at which the log stops making sense. -/
inductive ReplayError where
  | missingNodeId (seq : Nat) (kind : String)
  | finishedWithoutStart (seq : Nat) (node : NodeId)
  | failedWithoutStart (seq : Nat) (node : NodeId)
  | askedWithoutStart (seq : Nat) (node : NodeId)
  | answeredWithoutAsk (seq : Nat) (node : NodeId)
  | askedNothing (seq : Nat) (node : NodeId)
  | statusWithoutTask (seq : Nat) (task : TaskId)
  | ungrantableSubject (seq : Nat)
  | sessionWithoutNode (seq : Nat) (kind : String)
  deriving DecidableEq

namespace ReplayError

/-- The diagnostic a broken run carries. -/
def text : ReplayError → String
  | missingNodeId seq kind =>
    "seq " ++ toString seq ++ ": `" ++ kind ++ "` is missing node_id"
  | finishedWithoutStart seq node =>
    "seq " ++ toString seq ++ ": node `" ++ node ++
      "` got node_finished without a matching node_started"
  | failedWithoutStart seq node =>
    "seq " ++ toString seq ++ ": node `" ++ node ++
      "` got node_failed without a matching node_started"
  | askedWithoutStart seq node =>
    "seq " ++ toString seq ++ ": node `" ++ node ++
      "` got questions_asked without a matching node_started"
  | answeredWithoutAsk seq node =>
    "seq " ++ toString seq ++ ": node `" ++ node ++
      "` got questions_answered without a matching questions_asked"
  | askedNothing seq node =>
    "seq " ++ toString seq ++ ": node `" ++ node ++
      "` got questions_asked naming no question to answer"
  | statusWithoutTask seq task =>
    "seq " ++ toString seq ++ ": task `" ++ task ++
      "` got task_status_changed without a prior task_registered"
  | ungrantableSubject seq =>
    "seq " ++ toString seq ++ ": a grant names neither a task nor a node"
  | sessionWithoutNode seq kind =>
    "seq " ++ toString seq ++ ": `" ++ kind ++ "` is a session fact with no node"

end ReplayError

namespace RunState

def isRunning (s : RunState) (node : NodeId) : Bool := (s.nodes.state node).any NodeState.isRunning

def isWaiting (s : RunState) (node : NodeId) : Bool := (s.nodes.state node).any NodeState.isWaiting

/-- The node `event` names; a node fact that names none is a broken log. -/
def requireNodeId (event : StoredEvent) : Except ReplayError NodeId :=
  match event.nodeId with
  | some node => .ok node
  | none => .error (.missingNodeId event.seq event.body.kindName)

/-- A terminal needs the start it closes, and a start names the node it is about. -/
def refuseNode (s : RunState) (e : NodeEvent) (event : StoredEvent) : Except ReplayError Unit :=
  match e with
  | .finished _ =>
    match requireNodeId event with
    | .error err => .error err
    | .ok node => if s.isRunning node then .ok () else .error (.finishedWithoutStart event.seq node)
  | .failed _ =>
    match requireNodeId event with
    | .error err => .error err
    | .ok node => if s.isRunning node then .ok () else .error (.failedWithoutStart event.seq node)
  | .started _ =>
    match requireNodeId event with
    | .error err => .error err
    | .ok _ => .ok ()
  | .rerouted _ | .runnerResolved _ | .hookExecuted | .contextAssembled | .criteriaChecked _
  | .scopeChecked | .pullRequestOpened => .ok ()

/-- A question is asked by a running node and names at least one, and an answer comes back to a
    node that is waiting. -/
def refuseGate (s : RunState) (e : GateEvent) (event : StoredEvent) : Except ReplayError Unit :=
  match event.nodeId with
  | none => .ok ()
  | some node =>
    match e with
    | .questionsAsked p =>
      if !s.isRunning node then .error (.askedWithoutStart event.seq node)
      else if p.questions.isEmpty then .error (.askedNothing event.seq node)
      else .ok ()
    | .questionsAnswered _ =>
      if s.isWaiting node then .ok () else .error (.answeredWithoutAsk event.seq node)
    | .waiting _ | .resolved _ | .askingOpened => .ok ()

/-- The task a task event acts on, when it has to be registered. -/
def taskNamed : TaskEvent → Option TaskId
  | .statusChanged p => some p.taskId
  | .deviationDeclared p => some p.taskId
  | .deviationResolved p => some p.taskId
  | .criterionDeclaredUnpassable p => some p.taskId
  | .registered _ | .checkStarted _ | .checkAnswered _ | .shapesRead _ => none

/-- A status change, a deviation or a declared criterion names a task the log registered. -/
def refuseTask (s : RunState) (e : TaskEvent) (event : StoredEvent) : Except ReplayError Unit :=
  match taskNamed e with
  | none => .ok ()
  | some task =>
    if s.tasks.contains task then .ok () else .error (.statusWithoutTask event.seq task)

/-- A grant or a denial acts on a task, or on the node it is written under. -/
def refuseScope (e : ScopeEvent) (event : StoredEvent) : Except ReplayError Unit :=
  if GrantLedger.namesTask e || event.nodeId.isSome then .ok ()
  else .error (.ungrantableSubject event.seq)

/-- A session fact belongs to the attempt its session ran in. -/
def refuseSession (event : StoredEvent) : Except ReplayError Unit :=
  if event.nodeId.isSome then .ok ()
  else .error (.sessionWithoutNode event.seq event.body.kindName)

/-- Whether `event` can follow what this state holds.  A kind this binary does not know is never
    refused: it is counted instead. -/
def refuse (s : RunState) (event : StoredEvent) : Except ReplayError Unit :=
  match event.payload with
  | none => .ok ()
  | some (.node e) => s.refuseNode e event
  | some (.session _) => refuseSession event
  | some (.tasks e) => s.refuseTask e event
  | some (.scope e) => refuseScope e event
  | some (.gates e) => s.refuseGate e event
  | some (.run _) | some (.findings _) | some (.artifacts _) | some (.children _) => .ok ()

/-! ## What a gate does to the node it parks -/

/-- Parks `node` on `on`, keeping the state it had so the close of the wait can restore it. -/
def park (s : RunState) (node : NodeId) (on : NodeWait) : RunState :=
  { s with
    preGate := s.preGate.insert node (s.nodes.state node)
    nodes := s.nodes.setState node (some (.waiting on)) }

/-- Restores the state `node` had before its wait, and resumes the work the wait stopped. -/
def unpark (s : RunState) (node : NodeId) (at_ : Int) : RunState :=
  let prior := (s.preGate[node]?).join
  { s with
    preGate := s.preGate.erase node
    nodes := (s.nodes.setState node prior).resumeWorking node at_ }

/-- Parks `node` on the round of questions it asked, which its answer reopens. -/
def questionsAsked (s : RunState) (node : NodeId) (round : QuestionsAskedPayload)
    (event : StoredEvent) : RunState × Except ReplayError Unit :=
  match round.questions with
  | [] => (s, .error (.askedNothing event.seq node))
  | asked =>
    let s :=
      { s with
        nodes := s.nodes.settleAsking node round.tokensUsed event.meta_ s.run.suspensions }
    (s.park node (.questions asked), .ok ())

/-- A resolution restores only a node still waiting; an answer reopens the node exactly where
    asking left it. -/
def gateTransition (s : RunState) (e : GateEvent) (event : StoredEvent) :
    RunState × Except ReplayError Unit :=
  match event.nodeId with
  | none => (s, .ok ())
  | some node =>
    match e with
    | .waiting p =>
      let s := s.park node (.gate p.externalRef)
      ({ s with nodes := s.nodes.stopWorking node event.meta_ s.run.suspensions }, .ok ())
    | .resolved _ =>
      (if s.isWaiting node then s.unpark node event.timestamp else s, .ok ())
    | .questionsAsked round => s.questionsAsked node round event
    | .questionsAnswered _ => (s.unpark node event.timestamp, .ok ())
    | .askingOpened =>
      ({ s with nodes := s.nodes.stopWorking node event.meta_ s.run.suspensions }, .ok ())

/-! ## Application -/

/-- The run's own events.  A host suspension was recorded before the clock booked its stretch; a
    pause, a resume or a close ends every question the run still holds. -/
def applyRun (s : RunState) (e : RunEvent) (m : EventMeta) : RunState :=
  match e with
  | .hostSuspended _ => s
  | .paused _ | .resumed _ | .finished _ =>
    { s with run := s.run.apply e m, gates := s.gates.clearAsking }
  | _ => { s with run := s.run.apply e m }

/-- Hands the event to every ledger that reads its domain. -/
def applyOwners (s : RunState) (event : StoredEvent) : RunState × Except ReplayError Unit :=
  match event.payload with
  | none =>
    ({ s with unknownKinds := s.unknownKinds ++ [(event.seq, event.body.kindName)] }, .ok ())
  | some (.run e) => (s.applyRun e event.meta_, .ok ())
  | some (.node e) =>
    ({ s with
        nodes := s.nodes.apply e event.meta_ s.run.suspensions
        tasks := s.tasks.applyCriteria e }, .ok ())
  | some (.session e) =>
    match s.nodes.applySession e event.meta_ with
    | (nodes, .error ()) =>
      ({ s with nodes := nodes }, .error (.sessionWithoutNode event.seq event.body.kindName))
    | (nodes, .ok ()) =>
      ({ s with
          nodes := nodes
          tasks := s.tasks.applySession e
          degradations := s.degradations.apply e event.meta_ }, .ok ())
  | some (.tasks e) =>
    match s.tasks.apply e event.meta_ with
    | (tasks, .error unknown) =>
      ({ s with tasks := tasks }, .error (.statusWithoutTask event.seq unknown.task))
    | (tasks, .ok ()) => ({ s with tasks := tasks }, .ok ())
  | some (.scope e) =>
    match s.grants.apply e event.meta_ with
    | (grants, .error _) => ({ s with grants := grants }, .error (.ungrantableSubject event.seq))
    | (grants, .ok ()) => ({ s with grants := grants }, .ok ())
  | some (.findings e) => ({ s with findings := s.findings.apply event.nodeId e }, .ok ())
  | some (.artifacts e) =>
    ({ s with artifacts := s.artifacts.apply event.nodeId event.seq e }, .ok ())
  | some (.gates e) =>
    match s.gateTransition e event with
    | (s, .error err) => (s, .error err)
    | (s, .ok ()) => ({ s with gates := s.gates.apply e event.meta_ }, .ok ())
  | some (.children e) => ({ s with children := s.children.apply e event.meta_ }, .ok ())

/-- A suspension the event states, recorded before the stretch it ends is booked. -/
def suspend (s : RunState) (event : StoredEvent) : RunState :=
  match event.payload with
  | some (.run (.hostSuspended p)) =>
    { s with run := s.run.apply (.hostSuspended p) event.meta_ }
  | _ => s

/-- Books the stretch that ends at `event` against what the ledgers hold open. -/
def book (s : RunState) (event : StoredEvent) : RunState :=
  { s with
    clock :=
      s.clock.book event (Open.of s.run s.nodes s.gates s.tasks) s.run.suspensions }

/-- Whether `event` is a pause. -/
def isPause (event : StoredEvent) : Bool :=
  match event.payload with
  | some (.run (.paused _)) => true
  | _ => false

/-- Folds one event into every ledger its domain reaches. -/
def apply (s : RunState) (event : StoredEvent) : RunState × Except ReplayError Unit :=
  match s.refuse event with
  | .error err => (s, .error err)
  | .ok () =>
    match ((s.suspend event).book event).applyOwners event with
    | (s, .error err) => (s, .error err)
    | (s, .ok ()) =>
      ({ s with activity := s.activity.apply event, tailPaused := isPause event }, .ok ())

/-- Folds a log from `s`, and stops at the first event refused. -/
def deriveFrom (s : RunState) : List StoredEvent → RunState
  | [] => s
  | event :: rest =>
    match s.apply event with
    | (s, .ok ()) => deriveFrom s rest
    | (s, .error err) => { s with broken := some err.text }

end RunState

/-- Derives run state from its event log, in log order. -/
def derive (events : List StoredEvent) : RunState := RunState.deriveFrom {} events

/-- A log replay takes whole. -/
def Accepted (log : List StoredEvent) : Prop := (derive log).broken = none

instance (log : List StoredEvent) : Decidable (Accepted log) :=
  inferInstanceAs (Decidable (_ = _))

/-- A run of accepted events from one state to another. -/
abbrev RunSteps := Replay.Steps RunState.apply

end Yunta
